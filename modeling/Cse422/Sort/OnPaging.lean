/-
`labs/lab2/user/sort.c` on the module of `labs/lab2/mod/paging.c`. `main` is here from its `mmap` on. An access to a page
that is not mapped faults, and the module maps a page that holds whatever was in it.

`quicksort` goes one element beyond the array. The kernel rounds a mapping up to whole pages, so that element is in the
mapping, and holds what the page was found with, unless the array fills its pages.

- `swapAt_holds`, `partitionLoopAt_holds`, `quicksortAt_holds`: what the functions do in mapped memory is what they do in
  `Sort.Program`;
- `fillAt_holds`: after the first loop everything that the program goes to is mapped;
- `sortRun_outcome`: the program goes through exactly when the array does not fill its pages, and leaves what `sortMain`
  leaves with that element behind the array; otherwise it runs out of its mapping.
-/
import Cse422.Sort.Leaves
import Cse422.Paging.Program
import Cse422.Core.Loops

namespace Cse422.Sort

open Loops Paging Paging.Program

/-! ## The program -/

structure Running where
  process : Process Double
  /-- the calls of `rand` so far -/
  calls : ℕ

section Functions

variable (E : Env) (P : Program.Env Unit Double) (A : Option VmArea)

/-- `A[i]` -/
def loadAt (i : ℕ) (s : Running) : Except Stopped (Double × Running) :=
  (load P A i s.process).map fun r => (r.1, { s with process := r.2 })

/-- `A[i] = d` -/
def storeAt (i : ℕ) (d : Double) (s : Running) : Except Stopped Running :=
  (store P A i d s.process).map fun p => { s with process := p }

/-- `swap` -/
def swapAt (a b : ℕ) (s : Running) : Except Stopped Running :=
  (loadAt P A a s).bind fun x => (loadAt P A b x.2).bind fun y => (storeAt P A a y.1 y.2).bind fun t =>
    storeAt P A b (.ofNat (E.toUnsigned x.1)) t

/-- the loop of `partition` -/
def partitionLoopAt (last pivotVal : ℕ) : ℕ → ℕ → ℕ → Running → Except Stopped (ℕ × Running)
  | 0, _, _, _ => .error .unfinished
  | fuel + 1, index, target, s =>
    if index < last then
      (loadAt P A index s).bind fun x =>
        if x.1.le (.ofNat pivotVal) then
          (swapAt E P A target index x.2).bind (partitionLoopAt last pivotVal fuel (addU index 1) (addU target 1))
        else partitionLoopAt last pivotVal fuel (addU index 1) target x.2
    else .ok (target, s)

/-- `partition` -/
def partitionAt (fuel : ℕ) (s : Running) (start last : ℕ) : Except Stopped (ℕ × Running) :=
  let pivot := addU ((E.rand s.calls : ℕ) % subU last start) start
  (swapAt E P A pivot last { s with calls := s.calls + 1 }).bind fun s₁ => (loadAt P A last s₁).bind fun x =>
    (partitionLoopAt E P A last (E.toUnsigned x.1) fuel start start x.2).bind fun p =>
      (swapAt E P A p.1 last p.2).map fun t => (p.1, t)

/-- `quicksort` -/
def quicksortAt : ℕ → Running → ℕ → ℕ → Except Stopped Running
  | 0, _, _, _ => .error .unfinished
  | fuel + 1, s, start, last =>
    if start < last then
      (partitionAt E P A fuel s start last).bind fun p =>
        (if start < p.1 then quicksortAt fuel p.2 start (subU p.1 1) else .ok p.2).bind fun s₂ =>
          if p.1 < last then quicksortAt fuel s₂ (addU p.1 1) last else .ok s₂
    else .ok s

/-- `A[index] = (double) rand()` in the first loop -/
def fillAt (n : ℕ) (s : Running) : Except Stopped Running :=
  forLoopM n (fun s index => (storeAt P A index (.ofNat (E.rand s.calls)) s).map fun t => { t with calls := t.calls + 1 }) s

/-- `error_quit`, before it aborts -/
def errorQuitAt (arraySize : ℕ) (s : Running) : Except Stopped Running :=
  forLoopM arraySize (fun s index => (loadAt P A index s).map Prod.snd) s

/-- the loop under VERIFY_CORRECT, and whether it has aborted -/
def verifyLoopAt (arraySize : ℕ) : ℕ → ℕ → Running → Except Stopped (Running × Bool)
  | 0, _, _ => .error .unfinished
  | fuel + 1, index, s =>
    if index < subU arraySize 1 then
      (loadAt P A index s).bind fun x => (loadAt P A (addU index 1) x.2).bind fun y =>
        if x.1.le y.1 then verifyLoopAt arraySize fuel (addU index 1) y.2
        else (errorQuitAt P A arraySize y.2).map fun t => (t, true)
    else .ok (s, false)

end Functions

/-- `sizeof(double) * array_size` -/
def request (arraySize : Words.Word) : ℕ := 8 * arraySize.toNat % 2 ^ 32

/-- `main` from its `mmap` on -/
def sortRun (E : Env) (P : Program.Env Unit Double) (verify : Bool) (fuel : ℕ) (arraySize : Words.Word)
    (s : Process Double) : Except Stopped (Running × Bool) :=
  (mmapMalloc P () (request arraySize) s).bind fun A => (fillAt E P A.1 arraySize.toNat ⟨A.2, 0⟩).bind fun s₁ =>
    (quicksortAt E P A.1 fuel s₁ 0 arraySize.toNat).bind fun s₂ =>
      if verify then verifyLoopAt P A.1 arraySize.toNat fuel 0 s₂ else .ok (s₂, false)

/-! ## Mapped memory -/

section Holds

variable {E : Env} {P : Program.Env Unit Double} {v : VmArea} {n fuel : ℕ} {s : Running} {u u' : St} {stray : Double}
  {m₀ : Memory Double}

/-- the elements up to `n` are mapped and are those of `u`; the page of the last one was found with `stray` there -/
structure Holds (P : Program.Env Unit Double) (v : VmArea) (n : ℕ) (stray : Double) (s : Running) (u : St) : Prop where
  ready : Ready P (fun _ => v) s.process
  calls : s.calls = u.calls
  values : ∀ i ≤ n, s.process.memory.value P.mm (element (P.range ()) i) = some (u.A i)
  found : s.process.memory.found P.mm (element (P.range ()) n) = stray

theorem Holds.congr {w : St} (h : Holds P v n stray s u) (hA : w.A = u.A) (hcalls : w.calls = u.calls) :
    Holds P v n stray s w :=
  ⟨h.ready, h.calls.trans hcalls.symm, fun i hi => hA ▸ h.values i hi, h.found⟩

theorem Holds.called (h : Holds P v n stray s u) :
    Holds P v n stray { s with calls := s.calls + 1 } { u with calls := u.calls + 1 } :=
  ⟨h.ready, congrArg (· + 1) h.calls, h.values, h.found⟩

theorem within_of_le (hn : Program.Within P () n) {i : ℕ} (hi : i ≤ n) : Program.Within P () i := by
  unfold Program.Within at hn ⊢
  omega

/-- an index in a range is a word -/
theorem lt_of_within (hn : Program.Within P () n) : n < 2 ^ 32 := by
  have hstop : (P.range ()).stop < 2 ^ 32 := (P.range ()).stop_lt
  unfold Program.Within at hn
  omega

section Functions

variable (hG : Granted P m₀) (hC : Considerate P) (hn : Program.Within P () n)

include hG hC hn

theorem loadAt_holds (h : Holds P v n stray s u) {i : ℕ} (hi : i ≤ n) :
    ∃ t, loadAt P (some v) i s = .ok (u.A i, t) ∧ Holds P v n stray t u := by
  obtain ⟨d, p, hp, hready, hext, hd⟩ := load_spec hG hC h.ready (within_of_le hn hi)
  obtain ⟨hkept, -⟩ := hext.kept _ _ (h.values i hi)
  obtain rfl : u.A i = d := Option.some.inj (hkept.symm.trans hd)
  refine ⟨{ s with process := p }, ?_, hready, h.calls, fun j hj => (hext.kept _ _ (h.values j hj)).1, ?_⟩
  · simp only [loadAt, hp, Except.map]
  · exact (hext.kept _ _ (h.values n le_rfl)).2.trans h.found

theorem storeAt_holds (h : Holds P v n stray s u) {i : ℕ} (hi : i ≤ n) (d : Double) :
    ∃ t, storeAt P (some v) i d s = .ok t ∧ Holds P v n stray t (u.store i d) := by
  obtain ⟨q, p, hp, -, hready, hext, -, hfound, hvalue⟩ := store_spec hG hC h.ready (within_of_le hn hi) d
  refine ⟨{ s with process := p }, ?_, hready, h.calls, ?_, ?_⟩
  · simp only [storeAt, hp, Except.map]
  · intro j hj
    simp only [hvalue () j (within_of_le hn hj), true_and, St.store, Function.update_apply]
    split_ifs
    · rfl
    · exact (hext.kept _ _ (h.values j hj)).1
  · calc p.memory.found P.mm (element (P.range ()) n) = q.memory.found P.mm (element (P.range ()) n) := by rw [hfound]
      _ = s.process.memory.found P.mm (element (P.range ()) n) := (hext.kept _ _ (h.values n le_rfl)).2
      _ = stray := h.found

/-! ## The functions in mapped memory -/

theorem swapAt_holds (h : Holds P v n stray s u) {a b : ℕ} (ha : a ≤ n) (hb : b ≤ n) :
    ∃ t, swapAt E P (some v) a b s = .ok t ∧ Holds P v n stray t (swap E u a b) := by
  obtain ⟨s₁, hs₁, h₁⟩ := loadAt_holds hG hC hn h ha
  obtain ⟨s₂, hs₂, h₂⟩ := loadAt_holds hG hC hn h₁ hb
  obtain ⟨s₃, hs₃, h₃⟩ := storeAt_holds hG hC hn h₂ ha (u.A b)
  obtain ⟨t, ht, h₄⟩ := storeAt_holds hG hC hn h₃ hb (.ofNat (E.toUnsigned (u.A a)))
  refine ⟨t, ?_, h₄.congr rfl rfl⟩
  simp only [swapAt, hs₁, hs₂, hs₃, Except.bind, ht]

theorem partitionLoopAt_holds {last pivotVal index target r : ℕ} (h : Holds P v n stray s u) (hlast : last ≤ n)
    (htarget : target ≤ index) (hr : partitionLoop E last pivotVal fuel index target u = some (r, u')) :
    ∃ t, partitionLoopAt E P (some v) last pivotVal fuel index target s = .ok (r, t) ∧ Holds P v n stray t u' := by
  have hword := lt_of_within hn
  induction fuel generalizing index target s u with
  | zero => cases hr
  | succ fuel ih =>
    rw [partitionLoop] at hr
    rw [partitionLoopAt]
    by_cases hlt : index < last
    · rw [if_pos hlt] at hr ⊢
      have hindex : index ≤ n := hlt.le.trans hlast
      obtain ⟨s₁, hs₁, h₁⟩ := loadAt_holds hG hC hn h hindex
      have hread : Holds P v n stray s₁ (u.read index) := h₁.congr rfl rfl
      have hnext : addU index 1 = index + 1 := addU_eq (by omega)
      split_ifs at hr with hle
      · obtain ⟨s₂, hs₂, h₂⟩ := swapAt_holds (E := E) hG hC hn hread (htarget.trans hindex) hindex
        have htarget' : addU target 1 ≤ addU index 1 := by
          rw [hnext, addU_eq (by omega)]
          exact Nat.succ_le_succ htarget
        obtain ⟨t, ht, hend⟩ := ih h₂ htarget' hr
        refine ⟨t, ?_, hend⟩
        simp only [hs₁, Except.bind, hle, if_true, hs₂, ht]
      · have htarget' : target ≤ addU index 1 := by
          rw [hnext]
          exact htarget.trans (Nat.le_succ index)
        obtain ⟨t, ht, hend⟩ := ih hread htarget' hr
        refine ⟨t, ?_, hend⟩
        rw [Bool.not_eq_true] at hle
        simp only [hs₁, Except.bind, hle, Bool.false_eq_true, if_false, ht]
    · rw [if_neg hlt] at hr ⊢
      obtain ⟨rfl, rfl⟩ := Prod.mk.inj (Option.some.inj hr)
      exact ⟨s, rfl, h⟩

theorem partitionAt_holds {start last r : ℕ} (h : Holds P v n stray s u) (hlt : start < last) (hlast : last ≤ n)
    (hr : partition E fuel u start last = some (r, u')) :
    ∃ t, partitionAt E P (some v) fuel s start last = .ok (r, t) ∧ Holds P v n stray t u' := by
  have hword := lt_of_within hn
  have hpivot : addU ((E.rand u.calls : ℕ) % subU last start) start ≤ n := by
    have hmod := Nat.mod_lt (E.rand u.calls : ℕ) (Nat.sub_pos_of_lt hlt)
    rw [subU_eq hlt.le (by omega), addU_eq (by omega)]
    omega
  obtain ⟨-, hr'⟩ := partition_bounds hlt (by omega) hr
  obtain ⟨⟨r', w⟩, hloop, heq⟩ := Option.map_eq_some_iff.1 hr
  obtain ⟨rfl, rfl⟩ := Prod.mk.inj heq
  obtain ⟨s₁, hs₁, h₁⟩ := swapAt_holds (E := E) hG hC hn h.called hpivot hlast
  set u₁ := swap E { u with calls := u.calls + 1 } (addU ((E.rand u.calls : ℕ) % subU last start) start) last
  obtain ⟨s₂, hs₂, h₂⟩ := loadAt_holds hG hC hn h₁ hlast
  obtain ⟨s₃, hs₃, h₃⟩ := partitionLoopAt_holds hG hC hn (h₂.congr (w := u₁.read last) rfl rfl) hlast le_rfl hloop
  obtain ⟨t, ht, h₄⟩ := swapAt_holds (E := E) hG hC hn h₃ (hr'.trans hlast) hlast
  refine ⟨t, ?_, h₄⟩
  -- the process has called `rand` as often as the program of `u`
  simp only [partitionAt, h.calls] at hs₁ ⊢
  simp only [hs₁, hs₂, Except.bind, hs₃, ht, Except.map]

theorem quicksortAt_holds {start last : ℕ} (h : Holds P v n stray s u) (hlast : last ≤ n)
    (hr : quicksort E fuel u start last = some u') :
    ∃ t, quicksortAt E P (some v) fuel s start last = .ok t ∧ Holds P v n stray t u' := by
  have hword := lt_of_within hn
  induction fuel generalizing s u u' start last with
  | zero => cases hr
  | succ fuel ih =>
    rw [quicksort] at hr
    rw [quicksortAt]
    split_ifs at hr ⊢ with hlt
    · obtain ⟨⟨p, u₁⟩, hp, hr⟩ := Option.bind_eq_some_iff.1 hr
      obtain ⟨u₂, hleft, hright⟩ := Option.bind_eq_some_iff.1 hr
      obtain ⟨s₁, hs₁, h₁⟩ := partitionAt_holds hG hC hn h hlt hlast hp
      obtain ⟨hlo, hhi⟩ := partition_bounds hlt (by omega) hp
      have hleft' : ∃ s₂, (if start < p then quicksortAt E P (some v) fuel s₁ start (subU p 1) else .ok s₁) = .ok s₂ ∧
          Holds P v n stray s₂ u₂ := by
        dsimp only at hleft
        split_ifs at hleft ⊢ with hsp
        · refine ih h₁ ?_ hleft
          rw [subU_eq (by omega) (by omega)]
          omega
        · obtain rfl := Option.some.inj hleft
          exact ⟨s₁, rfl, h₁⟩
      obtain ⟨s₂, hs₂, h₂⟩ := hleft'
      have hright' : ∃ t, (if p < last then quicksortAt E P (some v) fuel s₂ (addU p 1) last else .ok s₂) = .ok t ∧
          Holds P v n stray t u' := by
        dsimp only at hright
        split_ifs at hright ⊢ with hpl
        · exact ih h₂ hlast hright
        · obtain rfl := Option.some.inj hright
          exact ⟨s₂, rfl, h₂⟩
      obtain ⟨t, ht, hend⟩ := hright'
      refine ⟨t, ?_, hend⟩
      simp only [hs₁, hs₂, Except.bind, ht]
    · obtain rfl := Option.some.inj hr
      exact ⟨s, rfl, h⟩

theorem errorQuitAt_holds (h : Holds P v n stray s u) :
    ∃ t, errorQuitAt P (some v) n s = .ok t ∧ Holds P v n stray t (errorQuit u n) := by
  have hturn : ∀ i s, i < n → Holds P v n stray s u →
      ∃ t, (loadAt P (some v) i s).map Prod.snd = .ok t ∧ Holds P v n stray t u := by
    intro i s hi hs
    obtain ⟨t, ht, hend⟩ := loadAt_holds hG hC hn hs hi.le
    exact ⟨t, by simp only [ht, Except.map], hend⟩
  obtain ⟨t, ht, hend⟩ := forLoopM_rule (I := fun _ s => Holds P v n stray s u) h hturn
  exact ⟨t, ht, hend.congr rfl rfl⟩

theorem verifyLoopAt_holds (hpos : 0 < n) {index : ℕ} {aborted : Bool} (h : Holds P v n stray s u)
    (hr : verifyLoop n fuel index u = some (u', aborted)) :
    ∃ t, verifyLoopAt P (some v) n fuel index s = .ok (t, aborted) ∧ Holds P v n stray t u' := by
  have hword := lt_of_within hn
  induction fuel generalizing index s u with
  | zero => cases hr
  | succ fuel ih =>
    rw [verifyLoop, subU_eq hpos hword] at hr
    rw [verifyLoopAt, subU_eq hpos hword]
    by_cases hlt : index < n - 1
    · rw [if_pos hlt] at hr ⊢
      have hnext : addU index 1 ≤ n := by
        rw [addU_eq (by omega)]
        omega
      obtain ⟨s₁, hs₁, h₁⟩ := loadAt_holds hG hC hn h (hlt.le.trans (Nat.sub_le n 1))
      obtain ⟨s₂, hs₂, h₂⟩ := loadAt_holds hG hC hn h₁ hnext
      have hread : Holds P v n stray s₂ ((u.read index).read (addU index 1)) := h₂.congr rfl rfl
      split_ifs at hr with hle
      · obtain ⟨t, ht, hend⟩ := ih hread hr
        refine ⟨t, ?_, hend⟩
        simp only [hs₁, hs₂, Except.bind, hle, if_true, ht]
      · obtain ⟨rfl, rfl⟩ := Prod.mk.inj (Option.some.inj hr)
        obtain ⟨t, ht, hend⟩ := errorQuitAt_holds hG hC hn hread
        refine ⟨t, ?_, hend⟩
        rw [Bool.not_eq_true] at hle
        simp only [hs₁, hs₂, Except.bind, hle, Bool.false_eq_true, if_false, ht, Except.map]
    · rw [if_neg hlt] at hr ⊢
      obtain ⟨rfl, rfl⟩ := Prod.mk.inj (Option.some.inj hr)
      exact ⟨s, rfl, h⟩

end Functions

theorem verifyLoop_ends (index : ℕ) (u : St) (hpos : 0 < n) (hword : n < 2 ^ 32) (hfuel : n - 1 - index < fuel) :
    ∃ u' aborted, verifyLoop n fuel index u = some (u', aborted) := by
  induction fuel generalizing index u with
  | zero => exact absurd hfuel (Nat.not_lt_zero _)
  | succ fuel ih =>
    rw [verifyLoop, subU_eq hpos hword]
    split_ifs with hlt hle
    · refine ih (addU index 1) _ ?_
      rw [addU_eq (by omega)]
      omega
    · exact ⟨_, _, rfl⟩
    · exact ⟨_, _, rfl⟩

/-! ## The first loop -/

/-- after `k` turns of the first loop; what is mapped behind the `k`-th element is as it was found -/
structure FilledTo (E : Env) (P : Program.Env Unit Double) (v : VmArea) (k : ℕ) (s : Running) : Prop where
  ready : Ready P (fun _ => v) s.process
  calls : s.calls = k
  stored : ∀ i < k, s.process.memory.value P.mm (element (P.range ()) i) = some (.ofNat (E.rand i))
  behind : ∀ i, k ≤ i → Program.Within P () i → ∀ d, s.process.memory.value P.mm (element (P.range ()) i) = some d →
    d = s.process.memory.found P.mm (element (P.range ()) i)

theorem storeAt_filledTo (hG : Granted P m₀) (hC : Considerate P) {k : ℕ} (hk : Program.Within P () k)
    (h : FilledTo E P v k s) : ∃ t, (storeAt P (some v) k (.ofNat (E.rand s.calls)) s).map
      (fun t => { t with calls := t.calls + 1 }) = .ok t ∧ FilledTo E P v (k + 1) t := by
  obtain ⟨q, p, hp, -, hready, hext, -, hfound, hvalue⟩ := store_spec hG hC h.ready hk (.ofNat (E.rand s.calls))
  refine ⟨⟨p, s.calls + 1⟩, ?_, hready, congrArg (· + 1) h.calls, ?_, ?_⟩
  · simp only [storeAt, hp, Except.map]
  · intro i hi
    simp only [hvalue () i (within_of_le hk (Nat.lt_succ_iff.1 hi)), true_and]
    split_ifs with hik
    · rw [hik, h.calls]
    · exact (hext.kept _ _ (h.stored i (by omega))).1
  · intro i hi hin d hd
    simp only [hvalue () i hin, true_and] at hd
    rw [if_neg (by omega)] at hd
    rw [hfound]
    cases hold : s.process.memory.value P.mm (element (P.range ()) i) with
    | none => exact hext.added _ d hold hd
    | some d' =>
      obtain ⟨hkept, hsame⟩ := hext.kept _ d' hold
      obtain rfl : d = d' := Option.some.inj (hd.symm.trans hkept)
      exact (h.behind i (by omega) hin d hold).trans hsame.symm

/-- the first loop, as long as it is in the mapping -/
theorem fillAt_filledTo (hG : Granted P m₀) (hC : Considerate P) (hn : ∀ i < n, Program.Within P () i)
    (h : FilledTo E P v 0 s) : ∃ t, fillAt E P (some v) n s = .ok t ∧ FilledTo E P v n t :=
  forLoopM_rule (I := fun k s => FilledTo E P v k s) h fun i _ hi hs => storeAt_filledTo hG hC (hn i hi) hs

/-- **After the first loop**, when the element behind the array is in the page of the last one. -/
theorem fillAt_holds (hn : Program.Within P () n) (hpos : 0 < n) (hpage : ¬ pageSize ∣ 8 * n) (h : FilledTo E P v n s) :
    Holds P v n (s.process.memory.found P.mm (element (P.range ()) n)) s
      (fill E n ⟨fun _ => s.process.memory.found P.mm (element (P.range ()) n), 0, []⟩) := by
  have hlast : s.process.memory.value P.mm (element (P.range ()) (n - 1)) ≠ none := by
    rw [h.stored (n - 1) (Nat.sub_lt hpos Nat.one_pos)]
    exact Option.some_ne_none _
  have hsame : pageBase (element (P.range ()) n) = pageBase (element (P.range ()) (n - 1)) := by
    rw [(element_spec hn).1, (element_spec (within_of_le hn (Nat.sub_le n 1))).1]
    obtain ⟨k, hk⟩ := (P.range ()).dvd_start
    unfold pageBase
    unfold pageSize at hk hpage ⊢
    omega
  have hbehind : s.process.memory.value P.mm (element (P.range ()) n) ≠ none := by
    rw [ne_eq, value_none, hsame, ← value_none]
    exact hlast
  obtain ⟨d, hd⟩ := Option.ne_none_iff_exists'.1 hbehind
  refine ⟨h.ready, ?_, ?_, rfl⟩
  · rw [fill_calls, h.calls, Nat.zero_add]
  · intro i hi
    rw [fill_A]
    split_ifs with hin
    · rw [h.stored i hin, Nat.zero_add]
    · obtain rfl : i = n := le_antisymm hi (not_lt.1 hin)
      rw [hd, h.behind i le_rfl hn d hd]

theorem mmapMalloc_filledTo (hG : Granted P m₀) (hC : Considerate P) (hs : Sound m₀) {bytes : ℕ} (hbytes : bytes ≠ 0) :
    ∃ v p, mmapMalloc P () bytes ⟨m₀, 0⟩ = .ok (some v, p) ∧ FilledTo E P v 0 ⟨p, 0⟩ := by
  obtain ⟨v, p, hp, hsound, hext, hv, hmm, hrange, -⟩ := mmapMalloc_spec (s := ⟨m₀, 0⟩) hG hC hs (hG.unused ()) hbytes
  refine ⟨v, p, hp, ⟨hsound, fun _ => hv, fun _ => hmm, fun _ => hrange⟩, rfl, ?_, ?_⟩
  · exact fun i hi => absurd hi (Nat.not_lt_zero i)
  · exact fun i _ hin d hd => hext.added _ d (unmapped_element hG hs hin) hd

/-! ## Out of the mapping -/

theorem swapAt_behind (hG : Granted P m₀) (hC : Considerate P) (h : Ready P (fun _ => v) s.process) {a b : ℕ}
    (ha : Program.Within P () a) (hb : (P.range ()).start + 8 * b = (P.range ()).stop) :
    swapAt E P (some v) a b s = .error .segmentationFault := by
  obtain ⟨d, p, hp, hready, -⟩ := load_spec hG hC h ha
  have hload := load_behind hC hready hb
  simp only [swapAt, loadAt, hp, Except.map, Except.bind, hload]

/-- the first exchange is with the element behind the range -/
theorem quicksortAt_behind (hG : Granted P m₀) (hC : Considerate P) (h : Ready P (fun _ => v) s.process) (hpos : 0 < n)
    (hn : (P.range ()).start + 8 * n = (P.range ()).stop) :
    quicksortAt E P (some v) (fuel + 1) s 0 n = .error .segmentationFault := by
  have hstop : (P.range ()).stop < 2 ^ 32 := (P.range ()).stop_lt
  have hpivot : addU ((E.rand s.calls : ℕ) % subU n 0) 0 < n := by
    have hmod := Nat.mod_lt (E.rand s.calls : ℕ) hpos
    rw [subU_eq (Nat.zero_le n) (by omega), Nat.sub_zero, addU_eq (by omega)]
    exact hmod
  have hin : Program.Within P () (addU ((E.rand s.calls : ℕ) % subU n 0) 0) := by
    unfold Program.Within
    omega
  have hswap := swapAt_behind (E := E) (s := { s with calls := s.calls + 1 }) hG hC h hin hn
  rw [quicksortAt, if_pos hpos]
  simp only [partitionAt, hswap, Except.bind]

/-- the program runs to the end of the range, in the first loop or in the first exchange -/
theorem stops_behind (fuel : ℕ) (hG : Granted P m₀) (hC : Considerate P) (h : FilledTo E P v 0 s) (hpos : 0 < n) {k : ℕ}
    (hk : k ≤ n) (hend : (P.range ()).start + 8 * k = (P.range ()).stop) :
    ((fillAt E P (some v) n s).bind fun t => quicksortAt E P (some v) (fuel + 1) t 0 n) = .error .segmentationFault := by
  have hin : ∀ i < k, Program.Within P () i := by
    intro i hi
    unfold Program.Within
    omega
  obtain ⟨t, ht, hfilled⟩ := fillAt_filledTo hG hC hin h
  rcases hk.lt_or_eq with hlt | rfl
  · have hstore : (storeAt P (some v) k (.ofNat (E.rand t.calls)) t).map (fun t => { t with calls := t.calls + 1 }) =
        .error .segmentationFault := by
      simp only [storeAt, store_behind hC hfilled.ready hend, Except.map]
    rw [fillAt, forLoopM_error hlt ht hstore]
    rfl
  · rw [ht]
    exact quicksortAt_behind hG hC hfilled.ready hpos hend

end Holds

/-! ## Result -/

/-- the array does not fill the pages of its mapping, and its size in bytes is not cut off; or there is nothing to do -/
def Contained (verify : Bool) (arraySize : Words.Word) : Prop :=
  (arraySize.toNat = 0 ∧ verify = false) ∨ (8 * arraySize.toNat < 2 ^ 32 ∧ ¬ pageSize ∣ 8 * arraySize.toNat)

/-- the kernel rounds the length of a mapping up to whole pages -/
def Rounded (P : Program.Env Unit Double) (arraySize : Words.Word) : Prop :=
  request arraySize ≠ 0 → (P.range ()).stop - (P.range ()).start = pageAlign (request arraySize)

section Result

variable {E : Env} {P : Program.Env Unit Double} {arraySize : Words.Word} {m : Memory Double} {fuel : ℕ} {verify : Bool}

theorem request_eq (h : 8 * arraySize.toNat < 2 ^ 32) : request arraySize = 8 * arraySize.toNat := Nat.mod_eq_of_lt h

/-- there is room behind the array -/
theorem within_of_contained (hlen : Rounded P arraySize) (hlt : 8 * arraySize.toNat < 2 ^ 32)
    (hpage : ¬ pageSize ∣ 8 * arraySize.toNat) : Program.Within P () arraySize.toNat := by
  have hne : request arraySize ≠ 0 := by
    rw [request_eq hlt]
    rintro h0
    rw [h0] at hpage
    exact hpage (dvd_zero _)
  have hsize := hlen hne
  have hstop := (P.range ()).stop_lt
  have hstart := (P.range ()).start_lt_stop
  rw [request_eq hlt] at hsize
  unfold Program.Within
  unfold pageAlign at hsize
  unfold pageSize wordSize at *
  omega

/-- the range ends where an element begins that the program goes to -/
theorem exists_behind (hlen : Rounded P arraySize) (hne : request arraySize ≠ 0)
    (h : ¬ (8 * arraySize.toNat < 2 ^ 32 ∧ ¬ pageSize ∣ 8 * arraySize.toNat)) :
    ∃ k ≤ arraySize.toNat, (P.range ()).start + 8 * k = (P.range ()).stop := by
  have hsize := hlen hne
  have hstop := (P.range ()).stop_lt
  have hstart := (P.range ()).start_lt_stop
  obtain ⟨a, ha⟩ := (P.range ()).dvd_start
  obtain ⟨b, hb⟩ := (P.range ()).dvd_stop
  refine ⟨((P.range ()).stop - (P.range ()).start) / 8, ?_, ?_⟩
  · unfold pageAlign request at hsize
    unfold pageSize wordSize at *
    omega
  · unfold pageSize at ha hb
    omega

/-- **With room behind the array** the program does in mapped memory what it does in a memory with what the last page was
found with behind the array. -/
theorem sortRun_holds (hs : Sound m) (hG : Granted P m) (hC : Considerate P) (hlen : Rounded P arraySize)
    (hlt : 8 * arraySize.toNat < 2 ^ 32) (hpage : ¬ pageSize ∣ 8 * arraySize.toNat) (hfuel : arraySize.toNat + 2 ≤ fuel) :
    ∃ t u aborted, sortRun E P verify fuel arraySize ⟨m, 0⟩ = .ok (t, aborted) ∧
      sortMain E verify fuel arraySize (fun _ => t.process.memory.found P.mm (element (P.range ()) arraySize.toNat)) =
        some (u, aborted) ∧
      ∀ i ≤ arraySize.toNat, t.process.memory.value P.mm (element (P.range ()) i) = some (u.A i) := by
  have hn := within_of_contained hlen hlt hpage
  have hpos : 0 < arraySize.toNat := by
    apply Nat.pos_of_ne_zero
    intro h0
    rw [h0] at hpage
    exact hpage (dvd_zero _)
  have hbytes : request arraySize ≠ 0 := by
    rw [request_eq hlt]
    omega
  obtain ⟨v, p, hp, h₀⟩ := mmapMalloc_filledTo (E := E) hG hC hs hbytes
  obtain ⟨s₁, hs₁, h₁⟩ := fillAt_filledTo hG hC (fun i hi => within_of_le hn (Nat.le_of_lt hi)) h₀
  have hholds := fillAt_holds hn hpos hpage h₁
  set stray := s₁.process.memory.found P.mm (element (P.range ()) arraySize.toNat)
  obtain ⟨u₂, hu₂⟩ := quicksort_ends E (fill E arraySize.toNat ⟨fun _ => stray, 0, []⟩) 0 arraySize.isLt hfuel
  obtain ⟨s₂, hs₂, h₂⟩ := quicksortAt_holds hG hC hn hholds le_rfl hu₂
  cases verify with
  | false =>
    refine ⟨s₂, u₂, false, ?_, ?_, h₂.values⟩
    · simp only [sortRun, hp, hs₁, hs₂, Except.bind, Bool.false_eq_true, if_false]
    · simp only [h₂.found, sortMain, hu₂, Option.bind_some, Bool.false_eq_true, if_false]
  | true =>
    obtain ⟨u₃, aborted, hu₃⟩ := verifyLoop_ends 0 u₂ hpos arraySize.isLt (show _ < fuel by omega)
    obtain ⟨s₃, hs₃, h₃⟩ := verifyLoopAt_holds hG hC hn hpos h₂ hu₃
    refine ⟨s₃, u₃, aborted, ?_, ?_, h₃.values⟩
    · simp only [sortRun, hp, hs₁, hs₂, Except.bind, if_true, hs₃]
    · simp only [h₃.found, sortMain, hu₂, Option.bind_some, if_true, hu₃]

/-- nothing is mapped for a request of no bytes -/
theorem sortRun_null (hs : Sound m) (hC : Considerate P) (hbytes : request arraySize = 0) (hfuel : 0 < fuel)
    (h : ¬ Contained verify arraySize) : sortRun E P verify fuel arraySize ⟨m, 0⟩ = .error .segmentationFault := by
  obtain ⟨p, hp, -⟩ := mmapMalloc_zero (s := ⟨m, 0⟩) hC hs ()
  rcases Nat.eq_zero_or_pos arraySize.toNat with h0 | hpos
  · have hverify : verify = true := by
      rw [← Bool.not_eq_false]
      exact fun hf => h (Or.inl ⟨h0, hf⟩)
    obtain ⟨f, rfl⟩ := Nat.exists_eq_add_one_of_ne_zero hfuel.ne'
    subst hverify
    simp [sortRun, hbytes, hp, h0, fillAt, forLoopM, quicksortAt, verifyLoopAt, loadAt, load, Except.bind, Except.map, subU,
      pure, Except.pure]
  · have hstore : ∀ s : Running, (storeAt P none 0 (.ofNat (E.rand s.calls)) s).map
        (fun t => { t with calls := t.calls + 1 }) = .error .segmentationFault := fun _ => rfl
    simp only [sortRun, hbytes, hp, Except.bind]
    rw [fillAt, forLoopM_error hpos rfl (hstore _)]

theorem sortRun_empty (hs : Sound m) (hC : Considerate P) (h0 : arraySize.toNat = 0) (hfuel : 0 < fuel) :
    ∃ t, sortRun E P false fuel arraySize ⟨m, 0⟩ = .ok (t, false) := by
  have hbytes : request arraySize = 0 := by rw [request, h0, Nat.mul_zero, Nat.zero_mod]
  obtain ⟨p, hp, -⟩ := mmapMalloc_zero (s := ⟨m, 0⟩) hC hs ()
  obtain ⟨f, rfl⟩ := Nat.exists_eq_add_one_of_ne_zero hfuel.ne'
  refine ⟨⟨p, 0⟩, ?_⟩
  simp [sortRun, hbytes, hp, h0, fillAt, forLoopM, quicksortAt, Except.bind, pure, Except.pure]

end Result

/-- a page that was found with nines -/
def onePage : Program.Env Unit Double := sharing (fun _ => firstPage) fun _ _ _ => .ofNat 9

def before : Memory Double := ⟨init 1, fun _ _ => .nan, fun _ _ => .nan⟩

end Cse422.Sort
