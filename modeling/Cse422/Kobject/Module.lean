/-
The module `kobject-example.c` of studio 5: three variables behind the files `foo`, `baz` and `bar` of a directory in
sysfs. `foo` has functions of its own; `baz` and `bar` have common ones, which look at the name of the attribute.

- `store_frame`: a write that fails changes no file, and one that succeeds only its own;
- `shows_last_stored`: after any writes and reads, a file shows the number of the last accepted write to it, or 0, and what
  any file shows can be written to any other.

Premises: `kstrtoint` reads a number as `Kstrtoint` says, and sysfs passes a written text on whole and one call at a time.
-/
import Cse422.Kobject.Kstrtoint

namespace Cse422.Kobject

open Words Records

/-! ## The module -/

inductive File where
  | foo | baz | bar
  deriving DecidableEq, Repr

def File.name : File → String
  | .foo => "foo"
  | .baz => "baz"
  | .bar => "bar"

/-- a `printk` -/
inductive Msg where
  | before (name : String) (v : ℤ)
  | after (name : String) (v : ℤ)
  deriving DecidableEq, Repr

structure Vars where
  foo : ℤ
  baz : ℤ
  bar : ℤ
  log : List Msg

def fooShow (s : Vars) : List Byte := printInt s.foo

/-- `kstrtoint` stores into `foo` itself, and only when it succeeds -/
def fooStore (s : Vars) (buf : List Byte) (count : ℕ) : ℤ × Vars :=
  match kstrtoint buf with
  | .error ret => (ret, { s with log := s.log ++ [.before "foo" s.foo, .after "foo" s.foo] })
  | .ok v => (count, { s with foo := v, log := s.log ++ [.before "foo" s.foo, .after "foo" v] })

def bShow (s : Vars) (name : String) : List Byte := printInt (if name = "baz" then s.baz else s.bar)

def bStore (s : Vars) (name : String) (buf : List Byte) (count : ℕ) : ℤ × Vars :=
  match kstrtoint buf with
  | .error ret => (ret, s)
  | .ok v =>
    if name = "baz" then (count, { s with baz := v, log := s.log ++ [.before "baz" s.baz, .after "baz" v] })
    else (count, { s with bar := v, log := s.log ++ [.before "bar" s.bar, .after "bar" v] })

/-- the functions of the attributes -/
def showFile (s : Vars) : File → List Byte
  | .foo => fooShow s
  | .baz => bShow s (File.name .baz)
  | .bar => bShow s (File.name .bar)

def storeFile (s : Vars) : File → List Byte → ℕ → ℤ × Vars
  | .foo => fooStore s
  | .baz => bStore s (File.name .baz)
  | .bar => bStore s (File.name .bar)

/-- a read or a write of a file -/
inductive Op where
  | read (f : File)
  | write (f : File) (buf : List Byte)
  deriving DecidableEq, Repr

def step (s : Vars) : Op → Vars
  | .read _ => s
  | .write f buf => (storeFile s f buf buf.length).2

/-- the module when `example_init` has returned 0 -/
def loaded : Vars := ⟨0, 0, 0, []⟩

def run (ops : List Op) : Vars := ops.foldl step loaded

/-! ## The variables of the files -/

/-- the variable behind a file -/
def Vars.value (s : Vars) : File → ℤ
  | .foo => s.foo
  | .baz => s.baz
  | .bar => s.bar

theorem showFile_eq (s : Vars) (f : File) : showFile s f = printInt (s.value f) := by
  cases f with
  | foo => rfl
  | baz => rfl
  | bar => rfl

/-- a write that `kstrtoint` refuses returns its error and leaves the variables -/
theorem storeFile_error (s : Vars) (f : File) {buf : List Byte} {ret : ℤ} (count : ℕ) (h : kstrtoint buf = .error ret) :
    (storeFile s f buf count).1 = ret ∧ (storeFile s f buf count).2.value = s.value := by
  cases f with
  | foo =>
    simp only [storeFile, fooStore, h]
    exact ⟨trivial, funext fun g => by cases g <;> rfl⟩
  | baz => simp only [storeFile, bStore, h, and_self]
  | bar => simp only [storeFile, bStore, h, and_self]

/-- a write that is accepted takes the whole text and sets one variable -/
theorem storeFile_ok (s : Vars) (f : File) {buf : List Byte} {v : ℤ} (count : ℕ) (h : kstrtoint buf = .ok v) :
    (storeFile s f buf count).1 = count ∧ (storeFile s f buf count).2.value = Function.update s.value f v := by
  cases f with
  | foo =>
    simp only [storeFile, fooStore, h]
    exact ⟨trivial, funext fun g => by cases g <;> rfl⟩
  | baz =>
    simp only [storeFile, bStore, File.name, h, if_true]
    exact ⟨trivial, funext fun g => by cases g <;> rfl⟩
  | bar =>
    have hne : ¬ File.name .bar = "baz" := by decide
    simp only [storeFile, bStore, h]
    rw [if_neg hne]
    exact ⟨rfl, funext fun g => by cases g <;> rfl⟩

/-- **Failed writes change nothing**, and others only the file that is written. -/
theorem store_frame (s : Vars) (f : File) (buf : List Byte) (count : ℕ) :
    ((storeFile s f buf count).1 < 0 → ∀ g, showFile (storeFile s f buf count).2 g = showFile s g) ∧
      ∀ g, g ≠ f → showFile (storeFile s f buf count).2 g = showFile s g := by
  simp only [showFile_eq]
  cases h : kstrtoint buf with
  | error ret =>
    obtain ⟨-, hvalue⟩ := storeFile_error s f count h
    rw [hvalue]
    exact ⟨fun _ _ => rfl, fun _ _ => rfl⟩
  | ok v =>
    obtain ⟨hret, hvalue⟩ := storeFile_ok s f count h
    rw [hret, hvalue]
    refine ⟨fun hneg => absurd hneg (by omega), fun g hg => ?_⟩
    rw [Function.update_of_ne hg]

/-! ## Runs -/

/-- the number that an operation stores into a file -/
def accepted (f : File) : Op → Option ℤ
  | .read _ => none
  | .write g buf => if g = f then (kstrtoint buf).toOption else none

/-- the last number that was accepted -/
def lastStored (f : File) (ops : List Op) : ℤ := (ops.filterMap (accepted f)).getLast?.getD 0

theorem step_value (s : Vars) (o : Op) (f : File) : (step s o).value f = (accepted f o).getD (s.value f) := by
  cases o with
  | read g => rfl
  | write g buf =>
    simp only [step, accepted]
    cases h : kstrtoint buf with
    | error ret =>
      rw [(storeFile_error s g buf.length h).2]
      split_ifs <;> rfl
    | ok v =>
      rw [(storeFile_ok s g buf.length h).2]
      split_ifs with hg
      · subst hg
        exact Function.update_self g v s.value
      · exact Function.update_of_ne (Ne.symm hg) v s.value

/-- the abstract module: three numbers, each the last one stored -/
theorem run_value (ops : List Op) (f : File) : (run ops).value f = lastStored f ops := by
  induction ops using List.reverseRecOn with
  | nil => cases f <;> rfl
  | append_singleton ops o ih =>
    have hrun : run (ops ++ [o]) = step (run ops) o := by
      rw [run, List.foldl_append]
      rfl
    rw [hrun, step_value, ih, lastStored, lastStored, List.filterMap_append]
    cases ho : accepted f o with
    | none => simp [ho]
    | some v => simp [ho]

theorem lastStored_inInt (ops : List Op) (f : File) : InInt (lastStored f ops) := by
  unfold lastStored
  cases h : (ops.filterMap (accepted f)).getLast? with
  | none => exact ⟨by norm_num [Option.getD], by norm_num [Option.getD]⟩
  | some v =>
    obtain ⟨o, -, ho⟩ := List.mem_filterMap.1 (List.mem_of_getLast? h)
    cases o with
    | read g => cases ho
    | write g buf =>
      simp only [accepted] at ho
      split_ifs at ho
      cases hk : kstrtoint buf with
      | error ret => rw [hk] at ho; cases ho
      | ok w =>
        rw [hk] at ho
        obtain rfl := Option.some.inj ho
        exact kstrtoint_inInt hk

/-- **A file shows what was stored last**, and its text can be stored again anywhere. -/
theorem shows_last_stored (ops : List Op) (f : File) :
    showFile (run ops) f = printInt (lastStored f ops) ∧
    ∀ g, (storeFile (run ops) g (showFile (run ops) f) (showFile (run ops) f).length).1 = (showFile (run ops) f).length ∧
      ∀ h, showFile (run (ops ++ [.write g (showFile (run ops) f)])) h =
        if h = g then showFile (run ops) f else showFile (run ops) h := by
  have hshow : ∀ ops f, showFile (run ops) f = printInt (lastStored f ops) := by
    intro ops f
    rw [showFile_eq, run_value]
  have hk : kstrtoint (showFile (run ops) f) = .ok (lastStored f ops) := by
    rw [hshow]
    exact kstrtoint_printInt (lastStored_inInt ops f)
  refine ⟨hshow ops f, fun g => ?_⟩
  obtain ⟨hret, hvalue⟩ := storeFile_ok (run ops) g (showFile (run ops) f).length hk
  refine ⟨hret, fun h => ?_⟩
  have hrun : run (ops ++ [.write g (showFile (run ops) f)]) =
      (storeFile (run ops) g (showFile (run ops) f) (showFile (run ops) f).length).2 := by
    rw [run, List.foldl_append]
    rfl
  rw [hrun, showFile_eq, hvalue]
  split_ifs with hg
  · rw [hg, Function.update_self, hshow]
  · rw [Function.update_of_ne hg, showFile_eq]

end Cse422.Kobject
