import Xv6Dedup.Kernel.Reading
import Xv6Dedup.System.Calls

/-!
# Booting and running the machine

The first process starts with the root directory as working directory. Calls
can be run one after another on a concrete machine.
-/

set_option autoImplicit false

namespace Xv6Dedup

open Program

/-- The kernel after `userinit`: `namei("/")` has taken the first cache entry. -/
def Machine.boot (drivers : Drivers) (disk : Blocks) : Machine where
  kernel := { mounted drivers disk with
    icache := Function.update (fun _ => {}) 0 { inum := ROOTINO, ref := 1 } }
  procs := Function.update (fun _ => none) initproc (some { cwd := 0, ofile := fun _ => none })

theorem namei_boot (drivers : Drivers) (disk : Blocks) (memo : Memo) : namei [slash] (mounted drivers disk, memo) =
      .ok (some 0) ((Machine.boot drivers disk).kernel, memo) := by
  have found : iget ROOTINO (mounted drivers disk, memo) = .ok 0 ((Machine.boot drivers disk).kernel, memo) := by
    rfl
  have started : startInode [slash] (mounted drivers disk, memo) =
      .ok 0 ((Machine.boot drivers disk).kernel, memo) := found
  have looked : namex [slash] false (mounted drivers disk, memo) =
      .ok (some (0, [])) ((Machine.boot drivers disk).kernel, memo) := bind_ok started
  exact bind_ok looked

/-! ## Concrete runs -/

def Machine.free (machine : Machine) : Call → Bool
  | .fork (some child) => (machine.procs child).isNone
  | .pipe _ (some page) => (machine.kernel.pipes page).isNone
  | _ => true

variable {machine : Machine} {call : Call}

theorem Machine.enabled_of_free (free : machine.free call = true) : machine.Enabled call := by
  cases call with
  | fork target | pipe _ target =>
    cases target with
    | none => trivial
    | some target => exact Option.isNone_iff_eq_none.mp free
  | _ => trivial

/-- The machine after a call that returns, with no buffer recycled. -/
def Machine.next (machine : Machine) (pid : Fin NPROC) (call : Call) : Option Machine :=
  match machine.procs pid with
  | none => none
  | some proc =>
    if machine.free call then
      match perform (decide (pid = initproc)) proc call (machine.kernel, {}) with
      | .ok outcome next =>
        some { kernel := next.1, procs := machine.settle pid call outcome }
      | .error _ _ => none
    else none

def Machine.failure (machine : Machine) (pid : Fin NPROC) (call : Call) : Option Stop :=
  match machine.procs pid with
  | none => none
  | some proc =>
    if machine.free call then
      match perform (decide (pid = initproc)) proc call (machine.kernel, {}) with
      | .ok _ _ => none
      | .error reason _ => some reason
    else none

def Machine.run (machine : Machine) : List (Fin NPROC × Call) → Option Machine
  | [] => some machine
  | (pid, call) :: rest =>
    match machine.next pid call with
    | none => none
    | some after => after.run rest

private theorem emptyMemo_ok : MemoOk .full {} := ⟨fun _ => rfl, fun _ => rfl, .inl rfl⟩

theorem Machine.step_of_next {after : Machine} {pid : Fin NPROC}
    (ran : machine.next pid call = some after) : machine.Step pid call after := by
  revert ran
  fun_cases Machine.next machine pid call <;> rintro ⟨⟩
  case case2 proc active free outcome next result =>
    exact ⟨proc, {}, outcome, next, active, enabled_of_free free, emptyMemo_ok, result, rfl⟩

theorem Machine.fails_of_failure {pid : Fin NPROC} {reason : Stop}
    (ran : machine.failure pid call = some reason) : machine.Fails pid call reason := by
  revert ran
  fun_cases Machine.failure machine pid call <;> rintro ⟨⟩
  case case3 proc active free next result =>
    exact ⟨proc, {}, next, active, enabled_of_free free, emptyMemo_ok, result⟩

def Machine.Reaches (machine after : Machine) : Prop :=
  Relation.ReflTransGen (fun before next => ∃ pid call, Machine.Step before pid call next) machine after

theorem Machine.reaches_of_run {after : Machine} {calls : List (Fin NPROC × Call)}
    (ran : machine.run calls = some after) : machine.Reaches after := by
  induction calls generalizing machine with
  | nil =>
    cases ran
    exact .refl
  | cons first rest ih =>
    obtain ⟨pid, call⟩ := first
    simp only [Machine.run] at ran
    cases stepped : machine.next pid call with
    | none =>
      rw [stepped] at ran
      cases ran
    | some middle =>
      rw [stepped] at ran
      exact .head ⟨pid, call, step_of_next stepped⟩ (ih ran)

end Xv6Dedup
