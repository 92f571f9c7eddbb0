import Xv6Dedup.System.Calls

/-!
# The process table

`proc.c`: the fields of `struct proc` that decide when a process runs, who
waits for it and what is freed with it, and the sections of `allocproc`, `fork`,
`exit`, `wait`, `sleep`, `wakeup` and `kill` that change them. A section that
holds `ptable.lock`, or that changes a slot nobody else looks at, is one
function of the table.
-/

set_option autoImplicit false

namespace Xv6Dedup.Process

open Function

abbrev Slot : Type := Fin NPROC

/-- A C `int`; `nextpid` wraps. -/
abbrev Pid : Type := BitVec 32

abbrev Frame : Type := Nat

inductive ProcState where
  | UNUSED
  | EMBRYO
  | SLEEPING
  | RUNNABLE
  | RUNNING
  | ZOMBIE
  deriving DecidableEq, Repr

/-- An address to sleep on: a process, or some other object of the kernel. -/
inductive Chan where
  | proc (slot : Slot)
  | object (address : Nat)
  deriving DecidableEq, Repr

structure Proc where
  state : ProcState := .UNUSED
  pid : Pid := 0
  parent : Option Slot := none
  chan : Option Chan := none
  killed : Bool := false
  kstack : Option Frame := none
  pgdir : Option Frame := none
  deriving DecidableEq, Repr

@[ext]
structure Table where
  proc : Slot → Proc := fun _ => {}
  nextpid : Pid := 1

def Table.set (table : Table) (p : Slot) (proc : Proc) : Table :=
  { table with proc := update table.proc p proc }

@[simp] theorem Table.set_same (table : Table) (p : Slot) (proc : Proc) : (table.set p proc).proc p = proc :=
  update_self ..

@[simp] theorem Table.set_other (table : Table) {p q : Slot} (proc : Proc) (other : q ≠ p) :
    (table.set p proc).proc q = table.proc q :=
  update_of_ne other ..

@[simp] theorem Table.set_nextpid (table : Table) (p : Slot) (proc : Proc) :
    (table.set p proc).nextpid = table.nextpid := rfl

def slots : List Slot := List.finRange NPROC

theorem mem_slots (p : Slot) : p ∈ slots := List.mem_finRange p

theorem nodup_slots : slots.Nodup := List.nodup_finRange NPROC

/-! ## `allocproc` and `fork` -/

def Table.findUnused (table : Table) : Option Slot :=
  slots.find? fun p => (table.proc p).state = .UNUSED

/-- The label `found` of `allocproc`, with the lock held. -/
def Table.embryo (table : Table) (p : Slot) : Table :=
  { table.set p { table.proc p with state := .EMBRYO, pid := table.nextpid } with
    nextpid := table.nextpid + 1 }

/-- `allocproc` allocates the kernel stack; the slot is given back when there is
no page for it. -/
def Table.allocStack (table : Table) (p : Slot) : Option Frame → Table
  | some page => table.set p { table.proc p with kstack := some page }
  | none => table.set p { table.proc p with kstack := none, state := .UNUSED }

/-- `fork` copies the memory; the stack and the slot are given back when that
fails. -/
def Table.copyMemory (table : Table) (np : Slot) : Option Frame → Table
  | some page => table.set np { table.proc np with pgdir := some page }
  | none => table.set np { table.proc np with pgdir := none, kstack := none, state := .UNUSED }

def Table.setParent (table : Table) (np parent : Slot) : Table :=
  table.set np { table.proc np with parent := some parent }

def Table.setState (table : Table) (p : Slot) (state : ProcState) : Table :=
  table.set p { table.proc p with state := state }

/-- `allocproc` with the page it gets for the kernel stack. -/
def allocproc (kstack : Option Frame) (table : Table) : Option Slot × Table :=
  match table.findUnused with
  | none => (none, table)
  | some p => (kstack.map fun _ => p, (table.embryo p).allocStack p kstack)

/-- `fork` of the process `proc`, with the pages it gets for the kernel stack and
the page directory. -/
def fork (proc : Slot) (kstack pgdir : Option Frame) (table : Table) : Option Slot × Table :=
  match allocproc kstack table with
  | (none, table) => (none, table)
  | (some np, table) =>
    match pgdir with
    | none => (none, table.copyMemory np none)
    | some page => (some np, ((table.copyMemory np (some page)).setParent np proc).setState np .RUNNABLE)

/-- The table after `userinit`: the first slot holds `initproc`. -/
def userinit (kstack pgdir : Frame) : Table :=
  let table := (allocproc (some kstack) {}).2
  (table.set initproc { table.proc initproc with pgdir := some pgdir }).setState initproc .RUNNABLE

/-! ## Sleeping and waking -/

/-- What `sleep` does to the process before it enters the scheduler. -/
def Table.putToSleep (table : Table) (p : Slot) (chan : Chan) : Table :=
  table.set p { table.proc p with chan := some chan, state := .SLEEPING }

def Proc.wake (chan : Option Chan) (proc : Proc) : Proc :=
  if proc.state = .SLEEPING ∧ proc.chan = chan then { proc with state := .RUNNABLE } else proc

def wakeup1 (chan : Option Chan) (table : Table) : Table :=
  { table with proc := fun p => (table.proc p).wake chan }

def kill (pid : Pid) (table : Table) : Int × Table :=
  match slots.find? fun p => (table.proc p).pid = pid with
  | none => (-1, table)
  | some p =>
    let proc := { table.proc p with killed := true }
    (0, table.set p (if proc.state = .SLEEPING then { proc with state := .RUNNABLE } else proc))

/-! ## `exit` and `wait` -/

/-- The loop of `exit` passes one slot to `initproc` when it is a child. -/
def passToInit (proc : Slot) (table : Table) (p : Slot) : Table :=
  if (table.proc p).parent = some proc then
    let table := table.setParent p initproc
    if (table.proc p).state = .ZOMBIE then wakeup1 (some (.proc initproc)) table else table
  else table

/-- The section of `exit` that holds the lock. -/
def exit (proc : Slot) (table : Table) : Table :=
  let table := wakeup1 ((table.proc proc).parent.map .proc) table
  (slots.foldl (passToInit proc) table).setState proc .ZOMBIE

def Table.zombieChild (table : Table) (proc : Slot) : Option Slot :=
  slots.find? fun p => (table.proc p).parent = some proc ∧ (table.proc p).state = .ZOMBIE

def Table.havekids (table : Table) (proc : Slot) : Bool :=
  slots.any fun p => (table.proc p).parent = some proc

/-- `wait` gives the slot of a zombie back; the pointer to the page directory
stays. -/
def Table.reap (table : Table) (p : Slot) : Table :=
  table.set p { table.proc p with
    kstack := none, state := .UNUSED, pid := 0, parent := none, killed := false }

/-- What one pass of the loop of `wait` decides. -/
inductive Waiting where
  | found (p : Slot)
  | failed
  | sleeps
  deriving DecidableEq, Repr

def Table.waitScan (table : Table) (proc : Slot) : Waiting :=
  match table.zombieChild proc with
  | some p => .found p
  | none => if !table.havekids proc || (table.proc proc).killed then .failed else .sleeps

/-! ## What the searches find -/

variable {p proc : Slot} {table : Table}

theorem findUnused_state (found : table.findUnused = some p) : (table.proc p).state = .UNUSED := by
  simpa using List.find?_some found

theorem zombieChild_spec (found : table.zombieChild proc = some p) :
    (table.proc p).parent = some proc ∧ (table.proc p).state = .ZOMBIE := by
  simpa using List.find?_some found

theorem waitScan_found (scanned : table.waitScan proc = .found p) :
    (table.proc p).parent = some proc ∧ (table.proc p).state = .ZOMBIE := by
  unfold Table.waitScan at scanned
  cases child : table.zombieChild proc with
  | none =>
    rw [child] at scanned
    dsimp only at scanned
    split at scanned <;> cases scanned
  | some q =>
    rw [child] at scanned
    cases scanned
    exact zombieChild_spec child

theorem waitScan_failed (scanned : table.waitScan proc = .failed) :
    (∀ p, (table.proc p).parent ≠ some proc) ∨ (table.proc proc).killed = true := by
  unfold Table.waitScan at scanned
  cases child : table.zombieChild proc with
  | none =>
    rw [child] at scanned
    dsimp only at scanned
    split at scanned
    · rename_i gives_up
      cases Bool.or_eq_true_iff.mp gives_up with
      | inl none =>
        have childless : table.havekids proc = false := by simpa using none
        exact .inl fun p isChild => absurd childless (by
          simpa [Table.havekids] using ⟨p, mem_slots p, isChild⟩)
      | inr killed => exact .inr killed
    · cases scanned
  | some q =>
    rw [child] at scanned
    cases scanned

/-! ## The slots after a section -/

/-- A slot is as before, up to a wakeup. -/
def Proc.Stirred (before after : Proc) : Prop :=
  after = before ∨ before.state = .SLEEPING ∧ after = { before with state := .RUNNABLE }

theorem stirred_wake (chan : Option Chan) (proc : Proc) : proc.Stirred (proc.wake chan) := by
  unfold Proc.wake
  split
  · rename_i sleeps
    exact .inr ⟨sleeps.1, rfl⟩
  · exact .inl rfl

namespace Proc.Stirred

variable {before middle after : Proc}

theorem refl (proc : Proc) : proc.Stirred proc := .inl rfl

theorem trans (first : before.Stirred middle) (second : middle.Stirred after) : before.Stirred after := by
  cases first with
  | inl same =>
    cases same
    exact second
  | inr woken =>
    obtain ⟨sleeps, rfl⟩ := woken
    cases second with
    | inl same => exact .inr ⟨sleeps, same⟩
    | inr again => cases again.1

variable (stirred : before.Stirred after)
include stirred

theorem state : after.state = before.state ∨ before.state = .SLEEPING ∧ after.state = .RUNNABLE := by
  cases stirred with
  | inl same => exact .inl (congrArg _ same)
  | inr woken => exact .inr ⟨woken.1, congrArg _ woken.2⟩

theorem state_iff (state : ProcState) (notSleeping : state ≠ .SLEEPING) (notRunnable : state ≠ .RUNNABLE) :
    after.state = state ↔ before.state = state := by
  cases stirred.state with
  | inl same => rw [same]
  | inr woken =>
    rw [woken.1, woken.2]
    exact ⟨fun is => absurd is.symm notRunnable, fun is => absurd is.symm notSleeping⟩

theorem pid : after.pid = before.pid := by
  cases stirred with
  | inl same => rw [same]
  | inr woken => rw [woken.2]

theorem parent : after.parent = before.parent := by
  cases stirred with
  | inl same => rw [same]
  | inr woken => rw [woken.2]

theorem killed : after.killed = before.killed := by
  cases stirred with
  | inl same => rw [same]
  | inr woken => rw [woken.2]

theorem kstack : after.kstack = before.kstack := by
  cases stirred with
  | inl same => rw [same]
  | inr woken => rw [woken.2]

theorem pgdir : after.pgdir = before.pgdir := by
  cases stirred with
  | inl same => rw [same]
  | inr woken => rw [woken.2]

end Proc.Stirred

/-- The new parent of a slot when `proc` exits. -/
def adoptive (proc : Slot) (parent : Option Slot) : Option Slot :=
  if parent = some proc then some initproc else parent

theorem passToInit_self : ({ table.proc p with parent := adoptive proc (table.proc p).parent }).Stirred
      ((passToInit proc table p).proc p) := by
  unfold passToInit adoptive
  split
  · dsimp only
    split
    · simpa [wakeup1, Table.setParent] using stirred_wake _ _
    · simpa [Table.setParent] using Proc.Stirred.refl _
  · exact .refl _

theorem passToInit_other {q : Slot} (other : q ≠ p) : (table.proc q).Stirred ((passToInit proc table p).proc q) := by
  unfold passToInit
  split
  · dsimp only
    split
    · simpa [wakeup1, Table.setParent, other] using stirred_wake _ _
    · simpa [Table.setParent, other] using Proc.Stirred.refl _
  · exact .refl _

theorem passToInit_fold (proc : Slot) {rest : List Slot} (distinct : rest.Nodup) (table : Table) (q : Slot) :
    ({ table.proc q with parent := if q ∈ rest then adoptive proc (table.proc q).parent
          else (table.proc q).parent }).Stirred
      ((rest.foldl (passToInit proc) table).proc q) := by
  induction rest generalizing table with
  | nil => exact .inl rfl
  | cons p rest ih =>
    obtain ⟨fresh, distinct⟩ := List.nodup_cons.mp distinct
    have later := ih distinct (passToInit proc table p)
    by_cases same : q = p
    · subst same
      rw [if_neg fresh] at later
      rw [if_pos (List.mem_cons_self ..)]
      exact (passToInit_self).trans later
    · have now : (table.proc q).Stirred ((passToInit proc table p).proc q) :=
        passToInit_other same
      simp only [List.mem_cons, same, false_or]
      refine Proc.Stirred.trans ?_ later
      cases now with
      | inl unchanged => exact .inl (by rw [unchanged])
      | inr woken => exact .inr ⟨woken.1, by rw [woken.2]⟩

theorem passToInit_nextpid (proc : Slot) (rest : List Slot) (table : Table) :
    (rest.foldl (passToInit proc) table).nextpid = table.nextpid := by
  induction rest generalizing table with
  | nil => rfl
  | cons p rest ih =>
    rw [List.foldl_cons, ih]
    unfold passToInit
    split
    · dsimp only
      split <;> rfl
    · rfl

theorem exit_other {q : Slot} (other : q ≠ proc) :
    ({ table.proc q with parent := adoptive proc (table.proc q).parent }).Stirred ((exit proc table).proc q) := by
  have folded := passToInit_fold proc nodup_slots (wakeup1 ((table.proc proc).parent.map .proc) table) q
  rw [if_pos (mem_slots q)] at folded
  unfold exit Table.setState
  rw [Table.set_other _ _ other]
  refine Proc.Stirred.trans ?_ folded
  have woken := stirred_wake ((table.proc proc).parent.map .proc) (table.proc q)
  cases woken with
  | inl same => exact .inl (by simp only [wakeup1, same])
  | inr woken => exact .inr ⟨woken.1, by simp only [wakeup1, woken.2]⟩

theorem exit_self (running : (table.proc proc).state ≠ .SLEEPING) : (exit proc table).proc proc = { table.proc proc with
      parent := adoptive proc (table.proc proc).parent, state := .ZOMBIE } := by
  have folded := passToInit_fold proc nodup_slots (wakeup1 ((table.proc proc).parent.map .proc) table) proc
  rw [if_pos (mem_slots proc)] at folded
  have asleep : (wakeup1 ((table.proc proc).parent.map .proc) table).proc proc = table.proc proc :=
    if_neg fun sleeps => running sleeps.1
  rw [asleep] at folded
  unfold exit Table.setState
  rw [Table.set_same]
  cases folded with
  | inl same => rw [same]
  | inr woken => exact absurd woken.1 running

theorem exit_nextpid (proc : Slot) (table : Table) : (exit proc table).nextpid = table.nextpid := by
  unfold exit Table.setState
  rw [Table.set_nextpid, passToInit_nextpid]
  rfl

theorem kill_cases (pid : Pid) (table : Table) : (kill pid table = (-1, table) ∧ ∀ p, (table.proc p).pid ≠ pid) ∨
    ∃ p, (table.proc p).pid = pid ∧ (kill pid table).1 = 0 ∧
      ({ table.proc p with killed := true }).Stirred ((kill pid table).2.proc p) ∧
      (kill pid table).2.nextpid = table.nextpid ∧
      ∀ q, q ≠ p → (kill pid table).2.proc q = table.proc q := by
  unfold kill
  cases found : slots.find? fun p => decide ((table.proc p).pid = pid) with
  | none =>
    exact .inl ⟨rfl, fun p is => by simpa [is] using List.find?_eq_none.mp found p (mem_slots p)⟩
  | some p =>
    refine .inr ⟨p, by simpa using List.find?_some found, rfl, ?_, rfl, fun q other =>
      Table.set_other _ _ other⟩
    rw [Table.set_same]
    split
    · rename_i sleeps
      exact .inr ⟨sleeps, rfl⟩
    · exact .inl rfl

end Xv6Dedup.Process
