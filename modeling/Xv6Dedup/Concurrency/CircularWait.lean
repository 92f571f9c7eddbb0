import Xv6Dedup.Concurrency.Locks

/-!
# Circular waits between `dedup` and writers

Every system call takes the log before it locks an inode. `dedup` takes the log
while it holds inode locks, so a circular wait can be reached. None is reached
as long as no transaction is under way that still has to lock an inode which
`dedup` holds and will keep until after its next `begin_trans`.
-/

set_option autoImplicit false

namespace Xv6Dedup.Locking

open Function LockOp

/-! ## The log comes first in the system calls -/

def heldAfter (held : List Nat) : LockOp → List Nat
  | .ilock inum | .ibusy inum => inum :: held
  | .iunlock inum | .iwake inum => held.filter (· ≠ inum)
  | .begin_trans | .commit_trans => held

/-- Started with the locks in `held`, no lock is held at any `begin_trans`, and
none at the end. -/
def LogFirst : (held : List Nat) → List LockOp → Prop
  | held, [] => held = []
  | held, op :: rest => (op = .begin_trans → held = []) ∧ LogFirst (heldAfter held op) rest

theorem LogFirst.append {held : List Nat} {first second : List LockOp}
    (firstOk : LogFirst held first) (secondOk : LogFirst [] second) : LogFirst held (first ++ second) := by
  induction first generalizing held with
  | nil =>
    rw [firstOk]
    exact secondOk
  | cons op rest ih => exact ⟨firstOk.1, ih firstOk.2⟩

theorem LogFirst.flatMap {α : Type} {items : List α} {ops : α → List LockOp}
    (each : ∀ item, LogFirst [] (ops item)) : LogFirst [] (items.flatMap ops) := by
  induction items with
  | nil => rfl
  | cons item rest ih => exact (each item).append ih

theorem logFirst_filewrite (inum : Nat) (device : Bool) (chunks : Nat) :
    LogFirst [] (filewrite inum device chunks) := by
  induction chunks with
  | zero => rfl
  | succ chunks ih =>
    refine LogFirst.append ?_ ih
    cases device <;> simp [filewriteChunk, LogFirst, heldAfter]

theorem logFirst_fileclose (inum : Nat) (last freed : Bool) : LogFirst [] (fileclose inum last freed) := by
  cases last <;> cases freed <;> simp [fileclose, iput, LogFirst, heldAfter]

theorem logFirst_unlinkFrom (outcome : Unlinking) : LogFirst [] (unlinkFrom outcome) := by
  cases outcome with
  | noParent => rfl
  | bad dp dpFreed =>
    cases dpFreed <;> simp [unlinkFrom, iunlockput, iput, LogFirst, heldAfter]
  | notEmpty dp ip dpFreed ipFreed | done dp ip dpFreed ipFreed =>
    cases dpFreed <;> cases ipFreed <;>
      simp [unlinkFrom, iunlockput, iput, LogFirst, heldAfter, List.filter_cons]

theorem logFirst_calls (calls : List Call) : LogFirst [] (calls.flatMap Call.ops) := by
  apply LogFirst.flatMap
  intro call
  cases call with
  | write inum device chunks => exact logFirst_filewrite inum device chunks
  | close inum last freed => exact logFirst_fileclose inum last freed
  | unlink path outcome =>
    refine LogFirst.append (LogFirst.flatMap ?_) (logFirst_unlinkFrom outcome)
    rintro ⟨inum, freed⟩
    cases freed <;> simp [iunlockput, iput, LogFirst, heldAfter]

/-! ## Careful runs -/

/-- The inodes a process still locks before its next `commit_trans`. -/
def pendingLocks : List LockOp → List Nat
  | [] | .commit_trans :: _ => []
  | .ilock inum :: rest => inum :: pendingLocks rest
  | _ :: rest => pendingLocks rest

/-- A `begin_trans` comes before the inode is released. -/
def KeepsPastBegin (inum : Nat) : List LockOp → Prop
  | [] => False
  | .begin_trans :: _ => True
  | .iunlock other :: rest | .iwake other :: rest => other ≠ inum ∧ KeepsPastBegin inum rest
  | _ :: rest => KeepsPastBegin inum rest

/-- A caller still has to lock an inode that `dedup` releases only after a
`begin_trans`. -/
def Crossing (state : LockState) (pid inum : Nat) : Prop :=
  inum ∈ pendingLocks (state.rest (.caller pid)) ∧ KeepsPastBegin inum (state.rest .dedup)

/-- The condition under which a process takes its next step: a transaction
begins only if it will not lock an inode that `dedup` keeps past a
`begin_trans`, and `dedup` does not lock an inode it will keep that way while
a transaction still has to lock it. -/
def Careful (state : LockState) (process : Process) : Prop :=
  match process, (state.rest process).head? with
  | .caller pid, some .begin_trans =>
    ∀ inum, state.inode inum = some .dedup → ¬ Crossing state pid inum
  | .dedup, some (.ilock inum) | .dedup, some (.ibusy inum) =>
    ∀ pid, state.log = some (.caller pid) → ¬ Crossing state pid inum
  | _, _ => True

def Step (state next : LockState) : Prop := ∃ process, state.step process = some next

def CarefulStep (state next : LockState) : Prop :=
  ∃ process, Careful state process ∧ state.step process = some next

structure Uncrossed (state : LockState) : Prop where
  logFirst : ∀ pid, ∃ held, LogFirst held (state.rest (.caller pid)) ∧
    ∀ inum, state.inode inum = some (.caller pid) → inum ∈ held
  apart : ∀ pid inum, state.log = some (.caller pid) → state.inode inum = some .dedup → ¬ Crossing state pid inum

theorem uncrossed_start (files : List FileScan) (calls : Nat → List Call) : Uncrossed (start files calls) where
  logFirst pid := ⟨[], logFirst_calls (calls pid), by simp [start]⟩
  apart := by simp [start]

inductive Effect (process : Process) (state : LockState) : LockOp → LockState → Prop where
  | begin {next : LockState} (log : next.log = some process)
      (inode : next.inode = state.inode) : Effect process state .begin_trans next
  | commit {next : LockState} (log : next.log = none)
      (inode : next.inode = state.inode) : Effect process state .commit_trans next
  | acquire {op : LockOp} {next : LockState} {inum : Nat}
      (named : op = .ilock inum ∨ op = .ibusy inum) (log : next.log = state.log)
      (inode : next.inode = update state.inode inum (some process)) :
      Effect process state op next
  | release {op : LockOp} {next : LockState} {inum : Nat}
      (named : op = .iunlock inum ∨ op = .iwake inum) (log : next.log = state.log)
      (inode : next.inode = update state.inode inum none) :
      Effect process state op next

variable {next : LockState} {process : Process}

theorem step_effect {state : LockState} (stepped : state.step process = some next) :
    ∃ op rest, state.rest process = op :: rest ∧
      next.rest = update state.rest process rest ∧ Effect process state op next := by
  rw [LockState.step] at stepped
  cases remaining : state.rest process with
  | nil => simp [remaining] at stepped
  | cons op rest =>
    simp only [remaining] at stepped
    refine ⟨op, rest, rfl, ?_⟩
    cases op with
    | begin_trans =>
      simp only [LockOp.run] at stepped
      split at stepped
      · cases stepped
        exact ⟨rfl, .begin rfl rfl⟩
      · cases stepped
    | commit_trans =>
      cases stepped
      exact ⟨rfl, .commit rfl rfl⟩
    | ilock inum | ibusy inum =>
      simp only [LockOp.run] at stepped
      split at stepped
      · cases stepped
        exact ⟨rfl, .acquire (by simp) rfl rfl⟩
      · cases stepped
    | iunlock inum | iwake inum =>
      simp only [LockOp.run] at stepped
      split at stepped
      · cases stepped
      · cases stepped
        exact ⟨rfl, .release (by simp) rfl rfl⟩

variable {inum : Nat} {op : LockOp}

private theorem Effect.mem_heldAfter {state : LockState} {held : List Nat}
    (effect : Effect process state op next) (holds : ∀ inum, state.inode inum = some process → inum ∈ held)
    (locked : next.inode inum = some process) : inum ∈ heldAfter held op := by
  cases effect with
  | begin log inode | commit log inode =>
    rw [inode] at locked
    exact holds inum locked
  | @acquire op next other named log inode =>
    by_cases same : inum = other
    · rcases named with rfl | rfl <;> simp [heldAfter, same]
    · rw [inode, update_of_ne same] at locked
      rcases named with rfl | rfl <;> simp [heldAfter, holds inum locked]
  | @release op next other named log inode =>
    by_cases same : inum = other
    · rw [inode, same, update_self] at locked
      cases locked
    · rw [inode, update_of_ne same] at locked
      rcases named with rfl | rfl <;> simp [heldAfter, holds inum locked, same]

private theorem Effect.inode_other {state : LockState} {other : Process}
    (effect : Effect process state op next) (different : other ≠ process)
    (locked : next.inode inum = some other) : state.inode inum = some other := by
  cases effect with
  | begin log inode | commit log inode => rwa [inode] at locked
  | @acquire op next acquired named log inode =>
    by_cases same : inum = acquired
    · rw [inode, same, update_self] at locked
      cases locked
      exact absurd rfl different
    · rwa [inode, update_of_ne same] at locked
  | @release op next released named log inode =>
    by_cases same : inum = released
    · rw [inode, same, update_self] at locked
      cases locked
    · rwa [inode, update_of_ne same] at locked

variable {rest : List LockOp}

private theorem pendingLocks_cons (uncommitted : op ≠ .commit_trans) (member : inum ∈ pendingLocks rest) :
    inum ∈ pendingLocks (op :: rest) := by
  cases op with
  | commit_trans => exact absurd rfl uncommitted
  | ilock other => exact List.mem_cons_of_mem _ member
  | begin_trans | iunlock other | ibusy other | iwake other => exact member

private theorem keepsPastBegin_cons (unreleased : op ≠ .iunlock inum ∧ op ≠ .iwake inum)
    (keeps : KeepsPastBegin inum rest) : KeepsPastBegin inum (op :: rest) := by
  cases op with
  | begin_trans => trivial
  | iunlock other => exact ⟨fun same => unreleased.1 (by rw [same]), keeps⟩
  | iwake other => exact ⟨fun same => unreleased.2 (by rw [same]), keeps⟩
  | commit_trans | ilock other | ibusy other => exact keeps

private theorem Crossing.before_caller {state : LockState} {pid other : Nat}
    (remaining : state.rest (.caller other) = op :: rest)
    (after : next.rest = update state.rest (.caller other) rest) (uncommitted : op ≠ .commit_trans)
    (crossing : Crossing next pid inum) : Crossing state pid inum := by
  obtain ⟨pending, keeps⟩ := crossing
  rw [after] at keeps
  refine ⟨?_, keeps⟩
  by_cases same : pid = other
  · subst same
    rw [after, update_self] at pending
    rw [remaining]
    exact pendingLocks_cons uncommitted pending
  · rwa [after, update_of_ne (by simpa using same)] at pending

private theorem Crossing.before_dedup {state : LockState} {pid : Nat}
    (remaining : state.rest .dedup = op :: rest) (after : next.rest = update state.rest .dedup rest)
    (unreleased : op ≠ .iunlock inum ∧ op ≠ .iwake inum) (crossing : Crossing next pid inum) :
    Crossing state pid inum := by
  obtain ⟨pending, keeps⟩ := crossing
  rw [after] at pending
  rw [after] at keeps
  refine ⟨pending, ?_⟩
  rw [remaining]
  exact keepsPastBegin_cons unreleased keeps

section

variable {state : LockState} (safe : Uncrossed state)
include safe

theorem Uncrossed.step_caller {pid : Nat} (careful : Careful state (.caller pid))
    (stepped : state.step (.caller pid) = some next) {owner : Nat} (log : next.log = some (.caller owner))
    (held : next.inode inum = some .dedup) : ¬ Crossing next owner inum := by
  intro crossing
  obtain ⟨op, rest, remaining, after, effect⟩ := step_effect stepped
  have heldBefore := effect.inode_other (by simp) held
  cases effect with
  | begin owned inode =>
    rw [owned] at log
    cases log
    simp only [Careful, remaining, List.head?_cons] at careful
    exact careful inum heldBefore (crossing.before_caller remaining after (by simp))
  | commit released inode => simp [released] at log
  | acquire named same inode | release named same inode =>
    rw [same] at log
    refine safe.apart owner inum log heldBefore (crossing.before_caller remaining after ?_)
    rcases named with rfl | rfl <;> simp

theorem Uncrossed.step_dedup (careful : Careful state .dedup) (stepped : state.step .dedup = some next)
    {owner : Nat} (log : next.log = some (.caller owner)) (held : next.inode inum = some .dedup) :
    ¬ Crossing next owner inum := by
  intro crossing
  obtain ⟨op, rest, remaining, after, effect⟩ := step_effect stepped
  cases effect with
  | begin owned inode => simp [owned] at log
  | commit released inode => simp [released] at log
  | @acquire op next other named same inode =>
    have before : Crossing state owner inum :=
      crossing.before_dedup remaining after (by rcases named with rfl | rfl <;> simp)
    rw [same] at log
    by_cases newly : inum = other
    · subst newly
      rcases named with rfl | rfl <;>
        simp only [Careful, remaining, List.head?_cons] at careful <;>
        exact careful owner log before
    · rw [inode, update_of_ne newly] at held
      exact safe.apart owner inum log held before
  | @release op next other named same inode =>
    rw [same] at log
    by_cases newly : inum = other
    · rw [inode, newly, update_self] at held
      cases held
    · rw [inode, update_of_ne newly] at held
      refine safe.apart owner inum log held (crossing.before_dedup remaining after ?_)
      rcases named with rfl | rfl <;> simp [Ne.symm newly]

theorem Uncrossed.step (step : CarefulStep state next) : Uncrossed next := by
  obtain ⟨process, careful, stepped⟩ := step
  constructor
  · intro pid
    obtain ⟨held, discipline, holds⟩ := safe.logFirst pid
    obtain ⟨op, rest, remaining, after, effect⟩ := step_effect stepped
    by_cases same : Process.caller pid = process
    · subst same
      rw [remaining] at discipline
      rw [after, update_self]
      exact ⟨heldAfter held op, discipline.2, fun inum => effect.mem_heldAfter holds⟩
    · rw [after, update_of_ne same]
      exact ⟨held, discipline, fun inum locked => holds inum (effect.inode_other same locked)⟩
  · intro owner inum log held
    cases process with
    | dedup => exact safe.step_dedup careful stepped log held
    | caller pid => exact safe.step_caller careful stepped log held

theorem Uncrossed.no_wait : ¬ CircularWait state := by
  rintro ⟨holder, owner, inum, locked, begins, log, locks⟩
  cases holder with
  | caller pid =>
    -- a caller that begins a transaction holds no lock
    obtain ⟨held, discipline, holds⟩ := safe.logFirst pid
    cases remaining : state.rest (.caller pid) with
    | nil => simp [remaining] at begins
    | cons op rest =>
      simp only [remaining, List.head?_cons, Option.some.injEq] at begins
      rw [remaining] at discipline
      have member := holds inum locked
      rw [discipline.1 begins] at member
      cases member
  | dedup =>
    cases owner with
    | dedup => simp [begins] at locks
    | caller pid =>
      refine safe.apart pid inum log locked ⟨?_, ?_⟩
      · cases remaining : state.rest (.caller pid) with
        | nil => simp [remaining] at locks
        | cons op rest =>
          simp only [remaining, List.head?_cons, Option.some.injEq] at locks
          simp [locks, pendingLocks]
      · cases remaining : state.rest .dedup with
        | nil => simp [remaining] at begins
        | cons op rest =>
          simp only [remaining, List.head?_cons, Option.some.injEq] at begins
          simp [begins, KeepsPastBegin]

end

/-- In every run whose steps are careful, no state has a circular wait. -/
theorem no_circular_wait_of_careful (files : List FileScan) (calls : Nat → List Call)
    {state : LockState} (run : Relation.ReflTransGen CarefulStep (start files calls) state) :
    ¬ CircularWait state := by
  have safe : Uncrossed state := by
    induction run with
    | refl => exact uncrossed_start files calls
    | tail _ step ih => exact ih.step step
  exact safe.no_wait

/-- A file whose first block is found again in the file itself, and freed. -/
def duplicateInFile (inum : Nat) : FileScan where
  inum := inum
  blocks := [.sameFile true]
  directChanged := true
  freed := false

def oneWriter (inum : Nat) : Nat → List Call
  | 0 => [.write inum false 1]
  | _ => []

/-- `dedup` has locked one file, the writer has begun to write another. -/
theorem no_circular_wait_two_files :
    ∃ state, Relation.ReflTransGen CarefulStep (start [duplicateInFile 2] (oneWriter 3)) state ∧
      state.inode 2 = some .dedup ∧ state.log = some (.caller 0) ∧ ¬ CircularWait state := by
  let initial := start [duplicateInFile 2] (oneWriter 3)
  let scanning := (initial.step .dedup).getD initial
  let writing := (scanning.step (.caller 0)).getD scanning
  have locked : CarefulStep initial scanning := by
    refine ⟨.dedup, ?_, rfl⟩
    intro pid owned
    cases owned
  have begun : CarefulStep scanning writing := by
    refine ⟨.caller 0, ?_, rfl⟩
    rintro inum held ⟨pending, _⟩
    have written : inum = 3 := List.mem_singleton.mp pending
    subst written
    cases held
  have run := (Relation.ReflTransGen.single locked).tail begun
  exact ⟨writing, run, rfl, rfl, no_circular_wait_of_careful _ _ run⟩

/-- `dedup` locks a file with a duplicate block, then a writer of that file
begins its transaction: each waits for the other. -/
theorem dedup_writer_circular_wait :
    ∃ state, Relation.ReflTransGen Step (start [duplicateInFile 2] (oneWriter 2)) state ∧ CircularWait state := by
  let initial := start [duplicateInFile 2] (oneWriter 2)
  let scanning := (initial.step .dedup).getD initial
  let writing := (scanning.step (.caller 0)).getD scanning
  have locked : Step initial scanning := ⟨.dedup, rfl⟩
  have begun : Step scanning writing := ⟨.caller 0, rfl⟩
  exact ⟨writing, (Relation.ReflTransGen.single locked).tail begun, .dedup, .caller 0, 2, rfl, rfl, rfl, rfl⟩

end Xv6Dedup.Locking
