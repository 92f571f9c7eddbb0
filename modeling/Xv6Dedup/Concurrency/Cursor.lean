import Xv6Dedup.Kernel.Dedup
import Xv6Dedup.Kernel.Image

/-!
# Two overlapping calls of `dedup`

The cursor `nextInum` is a global: every caller of `dedup` moves it, and every
caller's inner loop stops at it. Each call of `zeroNextInum`, `getNextInode`,
`getPrevInode` and `ilock` is one step. What depends on the data (which blocks
are searched for in other files, where a duplicate is found) is chosen freely,
and other processes create and delete files in between.
-/

set_option autoImplicit false

namespace Xv6Dedup.Cursor

open Function

/-! ## The steps of a call -/

/-- The loop of `getNextInode` over `count` inodes from `inum` on. -/
def nextFile (files : Nat → Bool) : (count inum : Nat) → Option Nat
  | 0, _ => none
  | count + 1, inum => if files inum then some inum else nextFile files count (inum + 1)

/-- The loop of `getPrevInode`, with the new value of `*prevInum`. -/
def prevFile (files : Nat → Bool) (nextInum : Nat) : (prevInum : Nat) → Option Nat × Nat
  | 0 => (none, 0)
  | prevInum + 1 =>
    if nextInum < prevInum + 1 then
      if files (prevInum + 1) then (some (prevInum + 1), prevInum)
      else prevFile files nextInum prevInum
    else (none, prevInum + 1)

inductive Process where
  | first
  | second
  deriving DecidableEq, Repr

/-- Where a call of `dedup` is. -/
inductive Phase where
  /-- Before `zeroNextInum`. -/
  | start
  /-- Before `getNextInode`. -/
  | outer
  /-- Before `ilock(ip1)`. -/
  | lockOuter (ip1 : Nat)
  /-- `ip1` is locked, with some of its blocks left. -/
  | block (ip1 left : Nat)
  /-- Before `getPrevInode`, in the search for one block. -/
  | inner (ip1 left prevInum : Nat)
  /-- Before `ilock(ip2)`. -/
  | lockInner (ip1 left prevInum ip2 : Nat)
  /-- The blocks of `ip2` are compared. -/
  | compare (ip1 left prevInum ip2 : Nat)
  | done
  deriving DecidableEq, Repr

structure Cursors where
  nextInum : Nat := 0
  /-- The inodes whose type on disk is `T_FILE`. -/
  files : Nat → Bool
  /-- `I_BUSY`. -/
  busy : Nat → Bool := fun _ => false
  phase : Process → Phase := fun _ => .start
  /-- What `getNextInode` has returned to each caller. -/
  visited : Process → List Nat := fun _ => []

def Cursors.goto (state : Cursors) (process : Process) (phase : Phase) : Cursors :=
  { state with phase := update state.phase process phase }

def Cursors.setBusy (state : Cursors) (inum : Nat) (busy : Bool) : Cursors :=
  { state with busy := update state.busy inum busy }

def Cursors.visit (state : Cursors) (process : Process) (inum : Nat) : Cursors :=
  { state with
    nextInum := inum
    visited := update state.visited process (state.visited process ++ [inum]) }

/-- The next step of a call; `none` when it has to wait or has returned.
`choice` stands for the data: whether `ip1` has an indirect table, whether a
block has to be searched for in other files, whether a duplicate is found. -/
def Cursors.step (state : Cursors) (process : Process) (choice : Bool) : Option Cursors :=
  match state.phase process with
  | .start => some ({ state with nextInum := 0 }.goto process .outer)
  | .outer =>
    match nextFile state.files (NINODES - (state.nextInum + 1)) (state.nextInum + 1) with
    | none => some (state.goto process .done)
    | some ip1 => some ((state.visit process ip1).goto process (.lockOuter ip1))
  | .lockOuter ip1 =>
    if state.busy ip1 then none
    else some ((state.setBusy ip1 true).goto process (.block ip1 (NDIRECT + if choice then NINDIRECT else 0)))
  | .block ip1 0 => some ((state.setBusy ip1 false).goto process .outer)
  | .block ip1 (left + 1) =>
    some (state.goto process (if choice then .inner ip1 left (NINODES - 1) else .block ip1 left))
  | .inner ip1 left prevInum =>
    match prevFile state.files state.nextInum prevInum with
    | (none, _) => some (state.goto process (.block ip1 left))
    | (some ip2, prevInum) => some (state.goto process (.lockInner ip1 left prevInum ip2))
  | .lockInner ip1 left prevInum ip2 =>
    if state.busy ip2 then none
    else some ((state.setBusy ip2 true).goto process (.compare ip1 left prevInum ip2))
  | .compare ip1 left prevInum ip2 =>
    some ((state.setBusy ip2 false).goto process (if choice then .block ip1 left else .inner ip1 left prevInum))
  | .done => none

def start (files : Nat → Bool) : Cursors := { files := files }

/-- A call takes a step, or another process changes the type of an inode that
is not in `kept`. -/
inductive Step (kept : Nat → Prop) : Cursors → Cursors → Prop where
  | call {state next : Cursors} (process : Process) (choice : Bool)
      (moves : state.step process choice = some next) : Step kept state next
  | retype (state : Cursors) (inum : Nat) (file : Bool) (free : ¬ kept inum) :
      Step kept state { state with files := update state.files inum file }

/-- A call that has returned has visited every file that was there throughout. -/
def Complete (kept : Nat → Prop) (state : Cursors) (process : Process) : Prop :=
  state.phase process = .done → ∀ inum, 1 ≤ inum → inum < NINODES → kept inum → inum ∈ state.visited process

/-! ## The loops -/

variable {files : Nat → Bool}

def Covered (kept : Nat → Prop) (visited : List Nat) (upTo : Nat) : Prop :=
  ∀ inum, 1 ≤ inum → inum ≤ upTo → inum < NINODES → kept inum → inum ∈ visited

/-- The cursor is where a call has left it, and nothing before it is missing. -/
def Tracked (kept : Nat → Prop) (state : Cursors) (process : Process) : Prop :=
  match state.phase process with
  | .start => True
  | .outer => Covered kept (state.visited process) state.nextInum
  | .lockOuter ip1 | .block ip1 _ | .inner ip1 _ _ =>
    state.nextInum = ip1 ∧ Covered kept (state.visited process) ip1
  | .lockInner ip1 _ _ ip2 | .compare ip1 _ _ ip2 =>
    state.nextInum = ip1 ∧ ip1 < ip2 ∧ Covered kept (state.visited process) ip1
  | .done => Covered kept (state.visited process) (NINODES - 1)

def Process.other : Process → Process
  | .first => .second
  | .second => .first

section Steps

variable {kept : Nat → Prop} {state next : Cursors} {process : Process} {choice : Bool}

theorem Tracked.complete (tracked : Tracked kept state process) : Complete kept state process := by
  intro returned inum positive bounded keeps
  unfold Tracked at tracked
  rw [returned] at tracked
  exact tracked inum positive (by omega) bounded keeps

end Steps

def Cursors.run (state : Cursors) : List (Process × Bool) → Option Cursors
  | [] => some state
  | (process, choice) :: rest => (state.step process choice).bind fun next => next.run rest

section Kernel

variable {free : Freedom} {state : State}

variable {ninodes nextInum : Nat}

end Kernel

end Xv6Dedup.Cursor
