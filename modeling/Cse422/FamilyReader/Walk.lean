/-
The walk of `pidme_store` up to the root. The loop ends at a process with a pid of at most 1, or after `maxDepth` turns;
the line with the label `(init/root)` comes after it in both cases.

- `ancestry_printed`: the whole path is printed if at most 500 of its processes are below the root, and otherwise the
  lines show its first 501;
- `cut_off`: a path with 501 processes below the root, and a process with pid 2 under the label.
-/
import Cse422.Core.Ancestry
import Cse422.FamilyReader.Module

namespace Cse422.FamilyReader

open Ancestry Words Kobject

variable {Pid Task : Type*}

/-! ## The property -/

/-- the real parents of a process up to the first with a pid of at most 1 -/
abbrev Path (t : Table Task) : Task → List Task → Prop := PathUp t.realParent fun a => t.pid a ≤ 1

def line (t : Table Task) (a : Task) : Msg := .pid (t.pid a) (t.comm a)

def rootLine (t : Table Task) (a : Task) : Msg := .initRoot (t.pid a) (t.comm a)

/-- the lines of a path, the last with the label -/
def family (t : Table Task) : List Task → List Msg
  | [] => []
  | [a] => [rootLine t a]
  | a :: b :: p => line t a :: family t (b :: p)

/-- the lines are those of the path, and the process under the label is a root -/
structure PrintsAncestry (t : Table Task) (a : Task) (lines : List Msg) : Prop where
  path : ∃ path, Path t a path ∧ path.Nodup ∧ lines = family t path
  last : ∃ b, lines.getLast? = some (rootLine t b) ∧ t.pid b ≤ 1

/-! ## The loop -/

section Walk

variable {t : Table Task} {a : Task} {p : List Task} {d : ℕ}

theorem family_cons (hp : p ≠ []) : family t (a :: p) = line t a :: family t p := by
  obtain ⟨b, q, rfl⟩ := List.exists_cons_of_ne_nil hp
  rfl

theorem family_getLast (hp : p ≠ []) : (family t p).getLast? = some (rootLine t (p.getLast hp)) := by
  induction p with
  | nil => exact absurd rfl hp
  | cons a p ih =>
    rcases eq_or_ne p [] with rfl | hne
    · rfl
    · rw [family_cons hne, List.getLast_cons hne, List.getLast?_cons, ih hne]
      rfl

theorem printsAncestry_family (hp : Path t a p) : PrintsAncestry t a (family t p) :=
  ⟨⟨p, hp, hp.nodup, rfl⟩, p.getLast hp.ne_nil, family_getLast hp.ne_nil, hp.getLast_root⟩

theorem walk_root (ha : t.pid a ≤ 1) (d : ℕ) : walk (fun _ => t) d a (t.pid a) = [rootLine t a] := by
  cases d with
  | zero => rfl
  | succ d => exact if_neg (not_lt.2 ha)

theorem walk_up (ha : ¬ t.pid a ≤ 1) (d : ℕ) : walk (fun _ => t) (d + 1) a (t.pid a) =
    line t a :: walk (fun _ => t) d (t.realParent a) (t.pid (t.realParent a)) := if_pos (not_le.1 ha)

/-- a path that ends before the turns do -/
theorem walk_eq (hp : Path t a p) : ∀ d, p.length ≤ d + 1 → walk (fun _ => t) d a (t.pid a) = family t p := by
  induction hp with
  | root ha => exact fun d _ => walk_root ha d
  | @up a p ha hp ih =>
    intro d hd
    have hpos := List.length_pos_iff.2 hp.ne_nil
    rw [List.length_cons] at hd
    obtain ⟨e, rfl⟩ : ∃ e, d = e + 1 := ⟨d - 1, by omega⟩
    rw [walk_up ha, family_cons hp.ne_nil, ih e (by omega)]

/-- what a line says of a process -/
def shown (t : Table Task) (a : Task) : Option (ℤ × String) := some (t.pid a, t.comm a)

/-- a path that is longer: one line for each process that a turn has reached, and for the one after them -/
theorem walk_take (hp : Path t a p) (hd : d + 1 < p.length) :
    ∃ last, walk (fun _ => t) d a (t.pid a) = (p.take d).map (line t) ++ [last] ∧
      (walk (fun _ => t) d a (t.pid a)).map Msg.process = (p.take (d + 1)).map (shown t) := by
  induction d generalizing a p with
  | zero =>
    refine ⟨_, rfl, ?_⟩
    cases hp with
    | root => rfl
    | up => rfl
  | succ d ih =>
    cases hp with
    | root => rw [List.length_singleton] at hd; omega
    | up ha hp =>
      rw [List.length_cons] at hd
      obtain ⟨last, hlast, hshown⟩ := ih hp (by omega)
      refine ⟨last, ?_, ?_⟩
      · rw [walk_up ha, hlast]
        rfl
      · rw [walk_up ha, List.map_cons, hshown]
        rfl

end Walk

/-! ## Result -/

section Result

variable [DecidableEq Task]

/-- **The ancestry is printed** as far as 500 processes below the root, and one more. -/
theorem ancestry_printed (k : Kernel Pid Task) (t : Table Task) (a : Task) (buf : List Byte) (count : ℕ) (s : Loaded Task)
    (htable : ∀ d, k.table d = t) (hreach : ∃ n, t.pid (t.realParent^[n] a) ≤ 1)
    (hbuf : kstrtoint buf = .ok (t.pid a)) (hfind : (k.findVpid (t.pid a)).bind k.getPidTask = some a) :
    ∃ path lines, Path t a path ∧ path.Nodup ∧
      (pidmeStore k s buf count).2.log =
        s.log ++ [.beforeUpdate s.pidme, .afterUpdate (t.pid a), .familyPidsOf (t.pid a)] ++ lines ∧
      (path.length ≤ 501 → PrintsAncestry t a lines) ∧
      (501 < path.length → ∃ last, lines = (path.take 500).map (line t) ++ [last] ∧
        lines.map Msg.process = (path.take 501).map (shown t)) := by
  obtain ⟨n, hn⟩ := hreach
  obtain ⟨path, hpath⟩ : ∃ path, Path t a path := exists_pathUp n hn
  have htask : k.task buf = some a := by simp only [Kernel.task, hbuf, hfind]
  obtain ⟨m, hm, hstore⟩ := pidmeStore_some s count htask
  obtain rfl : t.pid a = m := Except.ok.inj (hbuf.symm.trans hm)
  have hwalk : k.table = fun _ => t := funext htable
  rw [hwalk] at hstore
  refine ⟨path, _, hpath, hpath.nodup, congrArg (fun r => r.2.log) hstore, ?_, walk_take hpath⟩
  intro hle
  rw [walk_eq hpath 500 hle]
  exact printsAncestry_family hpath

/-- processes 1, 2, 3, ..., each the parent of the next -/
def chain : Table ℕ := ⟨fun n => n + 1, fun n => n - 1, fun _ => "sh"⟩

def chainKernel : Kernel ℕ ℕ := ⟨fun n => if 1 ≤ n then some (n - 1).toNat else none, some, fun _ => chain⟩

theorem chain_reach (n : ℕ) : ∃ m, chain.pid (chain.realParent^[m] n) ≤ 1 := by
  refine ⟨n, ?_⟩
  have hzero : chain.realParent^[n] n = 0 := by
    induction n with
    | zero => rfl
    | succ n ih => exact ih
  rw [hzero]
  decide

theorem chain_path_length {n : ℕ} {p : List ℕ} (hp : Path chain n p) : p.length = n + 1 := by
  induction hp with
  | root ha =>
    simp only [chain] at ha
    rw [List.length_singleton]
    omega
  | up ha _ ih =>
    simp only [chain] at ha ih
    rw [List.length_cons, ih]
    omega

/-- the texts "3" and "600": a path of three processes is printed whole, and of one of 600 the first 501 are shown -/
theorem ancestry_printed_chain :
    (∃ lines, (pidmeStore chainKernel ⟨0, [], fun _ => 0⟩ [51] 1).2.log =
      [] ++ [.beforeUpdate 0, .afterUpdate 3, .familyPidsOf 3] ++ lines ∧ PrintsAncestry chain 2 lines) ∧
    ∃ path lines, Path chain 599 path ∧ path.length = 600 ∧
      (pidmeStore chainKernel ⟨0, [], fun _ => 0⟩ [54, 48, 48] 3).2.log =
        [] ++ [.beforeUpdate 0, .afterUpdate 600, .familyPidsOf 600] ++ lines ∧
      lines.map Msg.process = (path.take 501).map (shown chain) := by
  constructor
  · obtain ⟨path, lines, hpath, -, hlog, hwhole, -⟩ := ancestry_printed chainKernel chain 2 [51] 1 ⟨0, [], fun _ => 0⟩
      (fun _ => rfl) (chain_reach 2) rfl rfl
    refine ⟨lines, hlog, hwhole ?_⟩
    rw [chain_path_length hpath]
    norm_num
  · obtain ⟨path, lines, hpath, -, hlog, -, hcut⟩ := ancestry_printed chainKernel chain 599 [54, 48, 48] 3
      ⟨0, [], fun _ => 0⟩ (fun _ => rfl) (chain_reach 599) rfl rfl
    obtain ⟨last, -, hshown⟩ := hcut (by rw [chain_path_length hpath]; norm_num)
    exact ⟨path, lines, hpath, chain_path_length hpath, hlog, hshown⟩

/-- the turns of a walk that is cut off -/
theorem walk_chain (d : ℕ) : ∀ n, d ≤ n →
    (walk (fun _ => chain) d n (chain.pid n)).getLast? = some (rootLine chain (n - d)) := by
  induction d with
  | zero => exact fun n _ => rfl
  | succ d ih =>
    intro n hn
    obtain ⟨m, rfl⟩ : ∃ m, n = m + 1 := ⟨n - 1, by omega⟩
    have hpid : ¬ chain.pid (m + 1) ≤ 1 := by
      simp only [chain]
      omega
    rw [walk_up hpid, List.getLast?_cons]
    have hrest := ih m (by omega)
    rw [Nat.add_sub_add_right]
    exact congrArg (fun o => some (o.getD (line chain (m + 1)))) hrest

/-- **A path that is cut off.** Process 502 has 501 processes on its path that are not process 1. -/
theorem cut_off : ∃ lines, (∀ n, ∃ m, chain.pid (chain.realParent^[m] n) ≤ 1) ∧
    kstrtoint [53, 48, 50] = .ok (chain.pid 501) ∧
    (chainKernel.findVpid (chain.pid 501)).bind chainKernel.getPidTask = some 501 ∧
    (pidmeStore chainKernel ⟨0, [], fun _ => 0⟩ [53, 48, 50] 3).2.log =
      [.beforeUpdate 0, .afterUpdate 502, .familyPidsOf 502] ++ lines ∧
    lines.getLast? = some (.initRoot 2 "sh") ∧ ¬ PrintsAncestry chain 501 lines := by
  have hlast := walk_chain 500 501 (by norm_num)
  refine ⟨_, chain_reach, rfl, rfl, rfl, hlast, ?_⟩
  intro h
  obtain ⟨b, hb, hpid⟩ := h.last
  have heq : rootLine chain 1 = rootLine chain b := Option.some.inj (hlast.symm.trans hb)
  have htwo : (2 : ℤ) = chain.pid b := (Msg.initRoot.inj heq).1
  omega

end Result

end Cse422.FamilyReader
