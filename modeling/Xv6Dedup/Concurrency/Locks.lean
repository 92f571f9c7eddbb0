import Mathlib.Logic.Relation
import Mathlib.Tactic.Common

/-!
# Locking skeletons

The order in which `dedup`, `filewrite`, `sys_unlink` and `fileclose` take and
release the log (`log.busy`) and the inode locks (`I_BUSY`). What depends on
the data (which inodes a path names, whether a duplicate is found, whether a
reference count is zero) is a parameter of the skeleton. Inodes are named by
their numbers.
-/

set_option autoImplicit false

namespace Xv6Dedup.Locking

open Function

/-- The steps at which a process takes, releases or waits for a lock. `ibusy`
and `iwake` are the two accesses to `I_BUSY` by which `iput` frees an inode;
`iput` does not wait, it panics when the inode is busy. -/
inductive LockOp where
  | begin_trans
  | commit_trans
  | ilock (inum : Nat)
  | iunlock (inum : Nat)
  | ibusy (inum : Nat)
  | iwake (inum : Nat)
  deriving DecidableEq, Repr

open LockOp

/-! ## Skeletons of the source functions -/

/-- `freed`: this was the last reference and the inode has no links. -/
def iput (inum : Nat) (freed : Bool) : List LockOp :=
  if freed then [ibusy inum, iwake inum] else []

def iunlockput (inum : Nat) (freed : Bool) : List LockOp :=
  iunlock inum :: iput inum freed

/-- One iteration of the loop of `filewrite`; `consolewrite` releases the
inode of a device while it prints. -/
def filewriteChunk (inum : Nat) (device : Bool) : List LockOp :=
  [begin_trans, ilock inum] ++ (if device then [iunlock inum, ilock inum] else []) ++ [iunlock inum, commit_trans]

def filewrite (inum : Nat) (device : Bool) (chunks : Nat) : List LockOp :=
  (List.replicate chunks (filewriteChunk inum device)).flatten

/-- `last`: the last reference to an open file with an inode. -/
def fileclose (inum : Nat) (last freed : Bool) : List LockOp :=
  if last then begin_trans :: iput inum freed ++ [commit_trans] else []

/-- The directories `namex` locks one after another, each with whether the
`iput` that follows frees it. -/
def namex (path : List (Nat × Bool)) : List LockOp :=
  path.flatMap fun entry => ilock entry.1 :: iunlockput entry.1 entry.2

/-- How `nameiparent` ends: without a parent, or with one that it has locked
and unlocked. -/
inductive Unlinking where
  | noParent
  | bad (dp : Nat) (dpFreed : Bool)
  | notEmpty (dp ip : Nat) (dpFreed ipFreed : Bool)
  | done (dp ip : Nat) (dpFreed ipFreed : Bool)

def unlinkFrom : Unlinking → List LockOp
  | .noParent => []
  | .bad dp dpFreed =>
    [ilock dp, iunlock dp, begin_trans, ilock dp] ++ iunlockput dp dpFreed ++ [commit_trans]
  | .notEmpty dp ip dpFreed ipFreed =>
    [ilock dp, iunlock dp, begin_trans, ilock dp, ilock ip] ++ iunlockput ip ipFreed ++
      iunlockput dp dpFreed ++ [commit_trans]
  | .done dp ip dpFreed ipFreed =>
    [ilock dp, iunlock dp, begin_trans, ilock dp, ilock ip] ++ iunlockput dp dpFreed ++
      iunlockput ip ipFreed ++ [commit_trans]

def sys_unlink (path : List (Nat × Bool)) (outcome : Unlinking) : List LockOp :=
  namex path ++ unlinkFrom outcome

/-- A system call of a process that works on the same files as `dedup`. -/
inductive Call where
  | write (inum : Nat) (device : Bool) (chunks : Nat)
  | close (inum : Nat) (last freed : Bool)
  | unlink (path : List (Nat × Bool)) (outcome : Unlinking)

def Call.ops : Call → List LockOp
  | .write inum device chunks => filewrite inum device chunks
  | .close inum last freed => fileclose inum last freed
  | .unlink path outcome => sys_unlink path outcome

/-- `lastPointer`: the duplicate's reference count is zero, so it is freed. -/
def deletedups (lastPointer : Bool) : List LockOp :=
  if lastPointer then [begin_trans, commit_trans] else []

/-- One round of the search in other files: the other inode, the duplicate
found in it, and whether its `iput` frees it. -/
structure Round where
  inum : Nat
  duplicate : Option Bool
  freed : Bool

def Round.ops (round : Round) : List LockOp :=
  ilock round.inum :: (round.duplicate.map deletedups).getD [] ++ iunlockput round.inum round.freed

/-- The search for a duplicate of one block: found in the file itself, or the
rounds over other files. -/
inductive Search where
  | sameFile (lastPointer : Bool)
  | otherFiles (rounds : List Round)

def Search.ops : Search → List LockOp
  | .sameFile lastPointer => deletedups lastPointer
  | .otherFiles rounds => rounds.flatMap Round.ops

/-- The scan of one file by the outer loop of `dedup`. -/
structure FileScan where
  inum : Nat
  blocks : List Search
  directChanged : Bool
  freed : Bool

def FileScan.ops (scan : FileScan) : List LockOp :=
  ilock scan.inum :: scan.blocks.flatMap Search.ops ++
    (if scan.directChanged then [begin_trans, commit_trans] else []) ++
    iunlockput scan.inum scan.freed

def dedup (files : List FileScan) : List LockOp :=
  files.flatMap FileScan.ops

/-! ## Interleaving -/

inductive Process where
  | dedup
  | caller (pid : Nat)
  deriving DecidableEq, Repr

structure LockState where
  /-- The process whose transaction makes `log.busy`. -/
  log : Option Process := none
  /-- The process that has set an inode's `I_BUSY`. -/
  inode : Nat → Option Process := fun _ => none
  rest : Process → List LockOp

/-- The effect of an operation; `none` when the process has to wait, or when
the kernel panics. -/
def LockOp.run (op : LockOp) (process : Process) (state : LockState) : Option LockState :=
  match op with
  | .begin_trans => if state.log = none then some { state with log := some process } else none
  | .commit_trans => some { state with log := none }
  | .ilock inum | .ibusy inum =>
    if state.inode inum = none then
      some { state with inode := update state.inode inum (some process) }
    else none
  | .iunlock inum | .iwake inum =>
    if state.inode inum = none then none
    else some { state with inode := update state.inode inum none }

def LockState.step (state : LockState) (process : Process) : Option LockState :=
  match state.rest process with
  | [] => none
  | op :: rest =>
    op.run process { state with rest := update state.rest process rest }

/-- Nothing is locked and every process is about to start: `dedup` on its
files, the others on their system calls. -/
def start (files : List FileScan) (calls : Nat → List Call) : LockState where
  rest
    | .dedup => dedup files
    | .caller pid => (calls pid).flatMap Call.ops

/-- A process holds an inode lock and waits for the log, whose owner waits for
that lock. -/
def CircularWait (state : LockState) : Prop :=
  ∃ holder owner inum, state.inode inum = some holder ∧
    (state.rest holder).head? = some .begin_trans ∧ state.log = some owner ∧
    (state.rest owner).head? = some (.ilock inum)

end Xv6Dedup.Locking
