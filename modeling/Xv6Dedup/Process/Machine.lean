import Xv6Dedup.Process.Table

/-!
# Processors and processes

Any number of processors run `scheduler`, and the processes they switch to run
`fork`, `exit`, `wait`, `kill`, `yield`, `sleep` and `wakeup`. `ptable.lock` is
handed from the scheduler to the process and back: `swtch` happens with the lock
held, and the step after it belongs to the other context. A section that ends in
the context it began in is one step; the unlocked steps of `fork` are steps of
their own.
-/

set_option autoImplicit false

namespace Xv6Dedup.Process

inductive Point where
  /-- Anywhere else, in user space or in the kernel; a new process starts here. -/
  | user
  /-- In `fork`, after the locked part of `allocproc`. -/
  | allocated (np : Slot)
  /-- The child has its kernel stack. -/
  | stacked (np : Slot)
  /-- The child has its memory. -/
  | copied (np : Slot)
  /-- The child has its parent. -/
  | parented (np : Slot)
  /-- In `sleep`, with a lock other than `ptable.lock` to take again. -/
  | sleeping
  /-- At the head of the loop of `wait`, with the lock. -/
  | waiting
  /-- In the `sleep` of `wait`. -/
  | waitSleeping
  | exited
  deriving DecidableEq, Repr

def Point.forking : Point → Option Slot
  | .allocated np | .stacked np | .copied np | .parented np => some np
  | _ => none

/-- The child a process is making, once it has its memory. -/
def Point.copying : Point → Option Slot
  | .copied np | .parented np => some np
  | _ => none

/-- Does the process release the lock and go on, when it was not asleep? -/
def Point.preempted : Point → Bool
  | .user | .allocated _ | .stacked _ | .copied _ | .parented _ => true
  | _ => false

inductive Mode where
  /-- The scheduler, without the lock. -/
  | idle
  /-- The scheduler at a slot of the table, with the lock. -/
  | scanning (k : Nat)
  /-- A process with the lock. -/
  | holding
  /-- A process in `sched`, with the lock and a new state. -/
  | switching
  /-- A process without the lock. -/
  | running
  deriving DecidableEq, Repr

def Mode.locked : Mode → Bool
  | .idle | .running => false
  | .scanning _ | .holding | .switching => true

def Mode.scheduler : Mode → Bool
  | .idle | .scanning _ => true
  | .holding | .switching | .running => false

structure Machine (Cpu : Type) where
  table : Table
  /-- The pages `kalloc` may return. -/
  free : Frame → Bool
  point : Slot → Point
  mode : Cpu → Mode
  /-- The variable `proc` of a processor. -/
  current : Cpu → Option Slot
  /-- The processor that holds `ptable.lock`. -/
  lock : Option Cpu

inductive Event where
  /-- `allocproc` takes the next pid. -/
  | allocated
  | forked (parent child : Pid)
  | exited (pid : Pid)
  /-- `wait` of a process returns the pid of a child. -/
  | reaped (parent : Pid) (slot : Slot) (child : Pid)
  /-- `wait` returns -1. -/
  | waitFailed (proc : Slot)
  deriving DecidableEq, Repr

def Table.release (table : Table) (p : Slot) (free : Frame → Bool) : Frame → Bool := fun page =>
  (table.proc p).kstack = some page || (table.proc p).pgdir = some page || free page

section Steps

variable {Cpu : Type} [DecidableEq Cpu]

open Function (update)

inductive Step (m : Machine Cpu) : Option Event → Machine Cpu → Prop
  -- the scheduler
  | acquire {c : Cpu} : m.mode c = .idle → m.lock = none →
      Step m none { m with lock := some c, mode := update m.mode c (.scanning 0) }
  | skip {c : Cpu} {k : Slot} : m.mode c = .scanning k → (m.table.proc k).state ≠ .RUNNABLE →
      Step m none { m with mode := update m.mode c (.scanning (k + 1)) }
  | pick {c : Cpu} {k : Slot} : m.mode c = .scanning k → (m.table.proc k).state = .RUNNABLE → Step m none { m with
        current := update m.current c (some k), table := m.table.setState k .RUNNING,
        mode := update m.mode c .holding }
  | leave {c : Cpu} : m.mode c = .scanning NPROC →
      Step m none { m with lock := none, mode := update m.mode c .idle }
  | back {c : Cpu} {p : Slot} : m.mode c = .switching → m.current c = some p → Step m none { m with
        current := update m.current c none, mode := update m.mode c (.scanning (p + 1)) }
  -- a process after `swtch`
  | resume {c : Cpu} {p : Slot} : m.mode c = .holding → m.current c = some p → (m.point p).preempted = true →
      Step m none { m with lock := none, mode := update m.mode c .running }
  | awake {c : Cpu} {p : Slot} : m.mode c = .holding → m.current c = some p → m.point p = .sleeping →
      Step m none { m with
        lock := none, mode := update m.mode c .running, point := update m.point p .user,
        table := m.table.set p { m.table.proc p with chan := none } }
  | awakeInWait {c : Cpu} {p : Slot} : m.mode c = .holding → m.current c = some p → m.point p = .waitSleeping →
      Step m none { m with
        point := update m.point p .waiting,
        table := m.table.set p { m.table.proc p with chan := none } }
  -- the loop of `wait`
  | wait {c : Cpu} {p : Slot} : m.mode c = .running → m.current c = some p → m.point p = .user → m.lock = none →
      Step m none { m with
        lock := some c, mode := update m.mode c .holding, point := update m.point p .waiting }
  | reap {c : Cpu} {p q : Slot} : m.mode c = .holding → m.current c = some p →
      m.point p = .waiting → m.table.waitScan p = .found q →
      Step m (some (.reaped (m.table.proc p).pid q (m.table.proc q).pid)) { m with
        table := m.table.reap q, free := m.table.release q m.free,
        lock := none, mode := update m.mode c .running, point := update m.point p .user }
  | waitFails {c : Cpu} {p : Slot} : m.mode c = .holding → m.current c = some p →
      m.point p = .waiting → m.table.waitScan p = .failed →
      Step m (some (.waitFailed p)) { m with
        lock := none, mode := update m.mode c .running, point := update m.point p .user }
  | waitSleeps {c : Cpu} {p : Slot} : m.mode c = .holding → m.current c = some p →
      m.point p = .waiting → m.table.waitScan p = .sleeps →
      Step m none { m with
        table := m.table.putToSleep p (.proc p), mode := update m.mode c .switching,
        point := update m.point p .waitSleeping }
  -- a clock interrupt may come at any point without the lock
  | yield {c : Cpu} {p : Slot} : m.mode c = .running → m.current c = some p → m.lock = none → Step m none { m with
        lock := some c, mode := update m.mode c .switching,
        table := m.table.setState p .RUNNABLE }
  | sleep {c : Cpu} {p : Slot} (chan : Chan) : m.mode c = .running → m.current c = some p →
      m.point p = .user → m.lock = none →
      Step m none { m with
        lock := some c, mode := update m.mode c .switching, point := update m.point p .sleeping,
        table := m.table.putToSleep p chan }
  -- also from an interrupt on a processor without a process
  | wakeup (chan : Chan) : m.lock = none → Step m none { m with table := wakeup1 (some chan) m.table }
  | kill {c : Cpu} {p : Slot} (pid : Pid) : m.mode c = .running → m.current c = some p →
      m.point p = .user → m.lock = none →
      Step m none { m with table := (kill pid m.table).2 }
  | exit {c : Cpu} {p : Slot} : m.mode c = .running → m.current c = some p →
      m.point p = .user → p ≠ initproc → m.lock = none →
      Step m (some (.exited (m.table.proc p).pid)) { m with
        lock := some c, mode := update m.mode c .switching, point := update m.point p .exited,
        table := exit p m.table }
  -- the steps of `fork`; without an unused slot it returns at once
  | embryo {c : Cpu} {p np : Slot} : m.mode c = .running → m.current c = some p →
      m.point p = .user → m.lock = none → m.table.findUnused = some np →
      Step m (some .allocated) { m with
        table := m.table.embryo np, point := update m.point p (.allocated np) }
  | noStack {c : Cpu} {p np : Slot} : m.mode c = .running → m.current c = some p → m.point p = .allocated np →
      Step m none { m with
        table := m.table.allocStack np none, point := update m.point p .user }
  | stack {c : Cpu} {p np : Slot} {page : Frame} : m.mode c = .running → m.current c = some p →
      m.point p = .allocated np → m.free page = true →
      Step m none { m with
        table := m.table.allocStack np (some page), free := update m.free page false,
        point := update (update m.point np .user) p (.stacked np) }
  | noMemory {c : Cpu} {p np : Slot} : m.mode c = .running → m.current c = some p → m.point p = .stacked np →
      Step m none { m with
        table := m.table.copyMemory np none,
        free := fun page => (m.table.proc np).kstack = some page || m.free page,
        point := update m.point p .user }
  | memory {c : Cpu} {p np : Slot} {page : Frame} : m.mode c = .running → m.current c = some p →
      m.point p = .stacked np → m.free page = true →
      Step m none { m with
        table := m.table.copyMemory np (some page), free := update m.free page false,
        point := update m.point p (.copied np) }
  | parent {c : Cpu} {p np : Slot} : m.mode c = .running → m.current c = some p → m.point p = .copied np →
      Step m none { m with
        table := m.table.setParent np p, point := update m.point p (.parented np) }
  | publish {c : Cpu} {p np : Slot} : m.mode c = .running → m.current c = some p → m.point p = .parented np →
      Step m (some (.forked (m.table.proc p).pid (m.table.proc np).pid)) { m with
        table := m.table.setState np .RUNNABLE, point := update m.point p .user }

inductive Runs (start : Machine Cpu) : List Event → Machine Cpu → Prop
  | refl : Runs start [] start
  | snoc {events : List Event} {m next : Machine Cpu} {event : Option Event} :
      Runs start events m → Step m event next → Runs start (events ++ event.toList) next

end Steps

/-- Every processor enters its scheduler after `userinit`. -/
def Machine.boot (Cpu : Type) (kstack pgdir : Frame) : Machine Cpu where
  table := userinit kstack pgdir
  free page := page ≠ kstack && page ≠ pgdir
  point _ := .user
  mode _ := .idle
  current _ := none
  lock := none

end Xv6Dedup.Process
