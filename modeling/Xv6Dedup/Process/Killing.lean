import Xv6Dedup.Process.Table

/-!
# Whom `kill` hits

Sequences of `fork`, `kill`, `exit` and `wait`. `kill` looks at `pid` alone, and
a slot that is not in use keeps a `pid`: zero before its first use and after it
was reaped, that of the failed child after a `fork` that ran out of memory.
Scheduling is left out; a process that may run may call.
-/

set_option autoImplicit false

namespace Xv6Dedup.Process

inductive Call where
  | fork (proc : Slot) (kstack pgdir : Option Frame)
  | kill (pid : Pid)
  | exit (proc : Slot)
  | wait (proc : Slot)

/-- The section of `wait` that holds the lock. -/
def wait (proc : Slot) (table : Table) : Table :=
  match table.waitScan proc with
  | .found p => table.reap p
  | .failed => table
  | .sleeps => table.putToSleep proc (.proc proc)

def Call.run : Call → Table → Table
  | .fork proc kstack pgdir, table => (Process.fork proc kstack pgdir table).2
  | .kill pid, table => (Process.kill pid table).2
  | .exit proc, table => Process.exit proc table
  | .wait proc, table => Process.wait proc table

def Table.MayRun (table : Table) (proc : Slot) : Prop :=
  (table.proc proc).state = .RUNNABLE ∨ (table.proc proc).state = .RUNNING

/-- The caller may run; `exit` of `initproc` panics. -/
def Call.Allowed : Call → Table → Prop
  | .fork proc _ _, table => table.MayRun proc
  | .kill _, _ => True
  | .exit proc, table => proc ≠ initproc ∧ table.MayRun proc
  | .wait proc, table => table.MayRun proc

def Table.Live (table : Table) (pid : Pid) : Prop :=
  ∃ p, (table.proc p).state ≠ .UNUSED ∧ (table.proc p).pid = pid

def Table.Stale (table : Table) (pid : Pid) : Prop :=
  ∃ p, (table.proc p).state = .UNUSED ∧ (table.proc p).pid = pid

instance (table : Table) (pid : Pid) : Decidable (table.Live pid) :=
  inferInstanceAs (Decidable (∃ p, (table.proc p).state ≠ .UNUSED ∧ (table.proc p).pid = pid))

instance (table : Table) (pid : Pid) : Decidable (table.Stale pid) :=
  inferInstanceAs (Decidable (∃ p, (table.proc p).state = .UNUSED ∧ (table.proc p).pid = pid))

def Table.Next (table next : Table) : Prop :=
  ∃ call : Call, call.Allowed table ∧ next = call.run table

/-- No call kills the pid of a slot that is not in use. -/
def Table.CarefulNext (table next : Table) : Prop :=
  ∃ call : Call, call.Allowed table ∧ (∀ pid, call = .kill pid → ¬ table.Stale pid) ∧
    next = call.run table

theorem kill_found_iff (pid : Pid) (table : Table) : (kill pid table).1 = 0 ↔ table.Live pid ∨ table.Stale pid := by
  constructor
  · intro hit
    cases kill_cases pid table with
    | inl missed =>
      rw [missed.1] at hit
      cases hit
    | inr found =>
      obtain ⟨p, is, _⟩ := found
      by_cases unused : (table.proc p).state = .UNUSED
      · exact .inr ⟨p, unused, is⟩
      · exact .inl ⟨p, unused, is⟩
  · intro present
    have holder : ∃ p, (table.proc p).pid = pid := by
      rcases present with ⟨p, _, is⟩ | ⟨p, _, is⟩
      · exact ⟨p, is⟩
      · exact ⟨p, is⟩
    obtain ⟨p, is⟩ := holder
    cases kill_cases pid table with
    | inl missed => exact absurd is (missed.2 p)
    | inr found =>
      obtain ⟨_, _, hit, _⟩ := found
      exact hit

/-! ## Slots not in use are not marked -/

def Table.Unmarked (table : Table) : Prop :=
  ∀ p, (table.proc p).state = .UNUSED → (table.proc p).killed = false

namespace Table.Unmarked

variable {table : Table}

variable (unmarked : table.Unmarked)
include unmarked

theorem set {p : Slot} {proc : Proc} (new : proc.state = .UNUSED → proc.killed = false) :
    (table.set p proc).Unmarked := by
  intro q
  by_cases same : q = p
  · rw [same, Table.set_same]
    exact new
  · rw [Table.set_other _ _ same]
    exact unmarked q

theorem embryo (p : Slot) : (table.embryo p).Unmarked :=
  unmarked.set (p := p) nofun

theorem allocStack {p : Slot} (unkilled : (table.proc p).killed = false) (kstack : Option Frame) :
    (table.allocStack p kstack).Unmarked := by
  cases kstack with
  | none | some page => exact unmarked.set fun _ => unkilled

theorem copyMemory {p : Slot} (unkilled : (table.proc p).killed = false) (pgdir : Option Frame) :
    (table.copyMemory p pgdir).Unmarked := by
  cases pgdir with
  | none | some page => exact unmarked.set fun _ => unkilled

theorem setParent (p parent : Slot) : (table.setParent p parent).Unmarked :=
  unmarked.set (unmarked p)

theorem setState (p : Slot) {state : ProcState} (used : state ≠ .UNUSED) : (table.setState p state).Unmarked :=
  unmarked.set fun unused => absurd unused used

end Table.Unmarked

theorem allocStack_killed (table : Table) (p : Slot) (kstack : Option Frame) :
    ((table.allocStack p kstack).proc p).killed = (table.proc p).killed := by
  cases kstack with
  | none | some page => simp [Table.allocStack]

theorem copyMemory_killed (table : Table) (p : Slot) (pgdir : Option Frame) :
    ((table.copyMemory p pgdir).proc p).killed = (table.proc p).killed := by
  cases pgdir with
  | none | some page => simp [Table.copyMemory]

theorem embryo_self (table : Table) (p : Slot) : (table.embryo p).proc p =
    { table.proc p with state := .EMBRYO, pid := table.nextpid } :=
  Table.set_same ..

section Calls

variable {table next : Table}

section

variable (unmarked : table.Unmarked)
include unmarked

theorem allocproc_unmarked (kstack : Option Frame) :
    (allocproc kstack table).2.Unmarked ∧ ∀ np, (allocproc kstack table).1 = some np →
      ((allocproc kstack table).2.proc np).killed = false := by
  unfold allocproc
  cases found : table.findUnused with
  | none => exact ⟨unmarked, nofun⟩
  | some p =>
    have unkilled : ((table.embryo p).proc p).killed = false := by
      rw [embryo_self]
      exact unmarked p (findUnused_state found)
    refine ⟨(unmarked.embryo p).allocStack unkilled kstack, fun np is => ?_⟩
    obtain ⟨_, _, rfl⟩ := Option.map_eq_some_iff.mp is
    exact (allocStack_killed ..).trans unkilled

theorem fork_unmarked (proc : Slot) (kstack pgdir : Option Frame) : (fork proc kstack pgdir table).2.Unmarked ∧
      ∀ np, (fork proc kstack pgdir table).1 = some np → ((fork proc kstack pgdir table).2.proc np).killed = false := by
  have allocated := allocproc_unmarked unmarked kstack
  unfold fork
  cases result : allocproc kstack table with
  | mk slot middle =>
    rw [result] at allocated
    cases slot with
    | none => exact ⟨allocated.1, nofun⟩
    | some np =>
      have unkilled := allocated.2 np rfl
      cases pgdir with
      | none => exact ⟨allocated.1.copyMemory unkilled none, nofun⟩
      | some page =>
        dsimp only
        have copied := (copyMemory_killed middle np (some page)).trans unkilled
        have unmarkedCopy := allocated.1.copyMemory unkilled (some page)
        refine ⟨(unmarkedCopy.setParent np proc).setState np nofun, ?_⟩
        intro child is
        obtain rfl := Option.some.inj is
        unfold Table.setState Table.setParent
        rw [Table.set_same, Table.set_same]
        exact copied

theorem exit_unmarked (proc : Slot) (awake : (table.proc proc).state ≠ .SLEEPING) : (exit proc table).Unmarked := by
  intro q unused
  by_cases same : q = proc
  · rw [same, exit_self awake] at unused
    cases unused
  · have stirred : Proc.Stirred _ ((exit proc table).proc q) := exit_other same
    rw [stirred.killed]
    exact unmarked q ((stirred.state_iff .UNUSED nofun nofun).mp unused)

theorem kill_unmarked {pid : Pid} (current : ¬ table.Stale pid) : (kill pid table).2.Unmarked := by
  cases kill_cases pid table with
  | inl missed =>
    rw [missed.1]
    exact unmarked
  | inr found =>
    obtain ⟨p, is, _, stirred, _, others⟩ := found
    intro q unused
    by_cases same : q = p
    · rw [same] at unused
      exact absurd ⟨p, (stirred.state_iff .UNUSED nofun nofun).mp unused, is⟩ current
    · rw [others q same] at unused ⊢
      exact unmarked q unused

theorem wait_unmarked (proc : Slot) : (wait proc table).Unmarked := by
  unfold wait
  cases table.waitScan proc with
  | found p => exact unmarked.set fun _ => rfl
  | failed => exact unmarked
  | sleeps => exact unmarked.set nofun

end

theorem Table.MayRun.awake {proc : Slot} (mayRun : table.MayRun proc) : (table.proc proc).state ≠ .SLEEPING := by
  cases mayRun with
  | inl runnable =>
    rw [runnable]
    nofun
  | inr running =>
    rw [running]
    nofun

theorem Table.Unmarked.step (unmarked : table.Unmarked) (step : table.CarefulNext next) : next.Unmarked := by
  obtain ⟨call, allowed, careful, rfl⟩ := step
  cases call with
  | fork proc kstack pgdir => exact (fork_unmarked unmarked proc kstack pgdir).1
  | kill pid => exact kill_unmarked unmarked (careful pid rfl)
  | exit proc => exact exit_unmarked unmarked proc allowed.2.awake
  | wait proc => exact wait_unmarked unmarked proc

theorem userinit_unmarked (kstack pgdir : Frame) : (userinit kstack pgdir).Unmarked := by
  have empty : Table.Unmarked {} := fun _ _ => rfl
  exact ((allocproc_unmarked empty (some kstack)).1.set fun _ => rfl).setState initproc nofun

theorem unmarked_of_run {kstack pgdir : Frame}
    (run : Relation.ReflTransGen Table.CarefulNext (userinit kstack pgdir) table) : table.Unmarked := by
  induction run with
  | refl => exact userinit_unmarked kstack pgdir
  | tail _ last ih => exact ih.step last

end Calls

/-- When no call kills the pid of a slot that is not in use, no new process has
been killed; and a call of `kill` returns 0 for the pids of processes only, but
for the pids of such slots. -/
theorem kill_hits_processes {kstack pgdir : Frame} {table : Table}
    (run : Relation.ReflTransGen Table.CarefulNext (userinit kstack pgdir) table) :
    (∀ pid, ((kill pid table).1 = 0 ↔ table.Live pid) ↔ (table.Stale pid → table.Live pid)) ∧
      ∀ proc kstack pgdir np, (fork proc kstack pgdir table).1 = some np →
        ((fork proc kstack pgdir table).2.proc np).killed = false := by
  refine ⟨fun pid => ?_, fun proc kstack pgdir => (fork_unmarked (unmarked_of_run run) ..).2⟩
  rw [kill_found_iff]
  constructor
  · intro agrees stale
    exact agrees.mp (.inr stale)
  · intro covered
    constructor
    · intro hit
      cases hit with
      | inl live => exact live
      | inr stale => exact covered stale
    · exact .inl

theorem kill_hits_processes_child : ∃ table, (fork 0 (some 3) (some 4) table).1 = some 2 ∧
      ((fork 0 (some 3) (some 4) table).2.proc 2).killed = false ∧ ((kill 2 table).1 = 0 ↔ table.Live 2) := by
  have forks : (Call.fork 0 (some 1) (some 2)).Allowed (userinit 5 6) := by
    change Table.MayRun _ _
    unfold Table.MayRun
    decide +kernel
  have kills : (Call.kill 2).Allowed ((Call.fork 0 (some 1) (some 2)).run (userinit 5 6)) := trivial
  have current : ¬ ((Call.fork 0 (some 1) (some 2)).run (userinit 5 6)).Stale 2 := by
    decide +kernel
  have run : Relation.ReflTransGen Table.CarefulNext (userinit 5 6)
      ((Call.kill 2).run ((Call.fork 0 (some 1) (some 2)).run (userinit 5 6))) := by
    refine .tail (.single ⟨_, forks, nofun, rfl⟩) ⟨_, kills, ?_, rfl⟩
    intro pid is
    cases is
    exact current
  have holds := kill_hits_processes run
  have child : (fork 0 (some 3) (some 4) ((Call.kill 2).run
      ((Call.fork 0 (some 1) (some 2)).run (userinit 5 6)))).1 = some 2 := by
    decide +kernel
  have live : Table.Live ((Call.kill 2).run ((Call.fork 0 (some 1) (some 2)).run (userinit 5 6))) 2 := by
    decide +kernel
  exact ⟨_, child, holds.2 _ _ _ _ child, (holds.1 2).mpr fun _ => live⟩

/-- `kill(0)` returns 0 although no process has the pid 0, and the next child is
born killed. -/
theorem kill_zero_marks_next_child : ∃ table, Relation.ReflTransGen Table.Next (userinit 5 6) table ∧
      (kill 0 table).1 = 0 ∧ ¬ table.Live 0 ∧
      table.Next (kill 0 table).2 ∧
      ∃ np, (fork initproc (some 1) (some 2) (kill 0 table).2).1 = some np ∧
        ((fork initproc (some 1) (some 2) (kill 0 table).2).2.proc np).killed = true := by
  refine ⟨_, .refl, by decide +kernel, by decide +kernel, ⟨.kill 0, trivial, rfl⟩, 1, ?_, ?_⟩
  · decide +kernel
  · decide +kernel

end Xv6Dedup.Process
