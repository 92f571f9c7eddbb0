import Xv6Dedup.Process.Machine

/-!
# A process runs on one processor

The invariant of the scheduler: the holder of `ptable.lock` is the processor in
a locked mode, and a process is `RUNNING` exactly when it is current somewhere,
except while it is in `sched`. With the pages of every slot apart, `wait` frees
none that a current process uses.
-/

set_option autoImplicit false

namespace Xv6Dedup.Process

open Function

variable {table : Table} {point : Point}

section Control

variable {Cpu : Type} {m next : Machine Cpu}

def Machine.Running (m : Machine Cpu) (p : Slot) : Prop := (m.table.proc p).state = .RUNNING

structure Control (m : Machine Cpu) : Prop where
  lock : ∀ c, m.lock = some c ↔ (m.mode c).locked = true
  current : ∀ c, m.current c = none ↔ (m.mode c).scheduler = true
  unique : ∀ c d p, m.current c = some p → m.current d = some p → c = d
  running : ∀ c p, m.current c = some p → (m.Running p ↔ m.mode c ≠ .switching)
  only : ∀ p, m.Running p → ∃ c, m.current c = some p

namespace Control

theorem kept (control : Control m) (lock : next.lock = m.lock) (mode : next.mode = m.mode)
    (current : next.current = m.current) (running : ∀ p, next.Running p ↔ m.Running p) : Control next := by
  constructor
  · rw [lock, mode]
    exact control.lock
  · rw [current, mode]
    exact control.current
  · rw [current]
    exact control.unique
  · intro c p
    rw [current, mode, running]
    exact control.running c p
  · intro p
    rw [current, running]
    exact control.only p

theorem owner {c : Cpu} {mode : Mode} (control : Control m) (is : m.mode c = mode)
    (locked : mode.locked = true) : m.lock = some c :=
  (control.lock c).mpr (is ▸ locked)

theorem isRunning {c : Cpu} {p : Slot} (control : Control m) (onCpu : m.current c = some p)
    (goes : m.mode c ≠ .switching) : m.Running p :=
  (control.running c p onCpu).mpr goes

variable [DecidableEq Cpu]

section Moves

-- the processor `c` goes to the mode `mode`
variable {c : Cpu} {p : Slot} {mode old : Mode} (control : Control m) (modes : next.mode = update m.mode c mode)
  (before : m.lock = none ∨ m.lock = some c) (lock : next.lock = if mode.locked then some c else none)
include control modes before lock

theorem moved (current : Option Slot) (currents : next.current = update m.current c current)
    (scheduler : current = none ↔ mode.scheduler = true)
    (alone : ∀ p d, current = some p → m.current d = some p → d = c)
    (enters : ∀ p, current = some p → (next.Running p ↔ mode ≠ .switching))
    (leaves : ∀ p, m.current c = some p → current ≠ some p → ¬ next.Running p)
    (others : ∀ p, current ≠ some p → m.current c ≠ some p → (next.Running p ↔ m.Running p)) : Control next := by
  have elsewhere {d : Cpu} (other : d ≠ c) : next.mode d = m.mode d ∧ next.current d = m.current d := by
    rw [modes, currents, update_of_ne other, update_of_ne other]
    exact ⟨rfl, rfl⟩
  have here : next.mode c = mode ∧ next.current c = current := by
    rw [modes, currents, update_self, update_self]
    exact ⟨rfl, rfl⟩
  constructor
  · intro d
    by_cases same : d = c
    · rw [same, here.1, lock]
      cases mode.locked <;> simp
    · have notOwner : m.lock ≠ some d := by
        cases before with
        | inl free => rw [free]; nofun
        | inr owned =>
          rw [owned]
          exact fun owner => same (Option.some.inj owner).symm
      rw [(elsewhere same).1, lock]
      constructor
      · intro owner
        cases locked : mode.locked with
        | true =>
          rw [locked] at owner
          exact absurd (Option.some.inj owner).symm same
        | false =>
          rw [locked] at owner
          cases owner
      · intro locked
        exact absurd ((control.lock d).mpr locked) notOwner
  · intro d
    by_cases same : d = c
    · rw [same, here.1, here.2]
      exact scheduler
    · rw [(elsewhere same).1, (elsewhere same).2]
      exact control.current d
  · intro d e p onD onE
    by_cases dc : d = c
    · by_cases ec : e = c
      · rw [dc, ec]
      · rw [dc, here.2] at onD
        rw [(elsewhere ec).2] at onE
        exact absurd (alone p e onD onE) ec
    · rw [(elsewhere dc).2] at onD
      by_cases ec : e = c
      · rw [ec, here.2] at onE
        exact absurd (alone p d onE onD) dc
      · rw [(elsewhere ec).2] at onE
        exact control.unique d e p onD onE
  · intro d p onD
    by_cases dc : d = c
    · rw [dc, here.2] at onD
      rw [dc, here.1]
      exact enters p onD
    · rw [(elsewhere dc).2] at onD
      rw [(elsewhere dc).1, others p (fun entered => dc (alone p d entered onD))
        fun left => dc (control.unique d c p onD left)]
      exact control.running d p onD
  · intro p running
    by_cases entered : current = some p
    · exact ⟨c, here.2.trans entered⟩
    · by_cases left : m.current c = some p
      · exact absurd running (leaves p left entered)
      · obtain ⟨d, onD⟩ := control.only p ((others p entered left).mp running)
        have other : d ≠ c := fun same => left (same ▸ onD)
        exact ⟨d, (elsewhere other).2.trans onD⟩

theorem remoded (onCpu : m.current c = some p) (currents : next.current = m.current)
    (process : mode.scheduler = false) (enters : next.Running p ↔ mode ≠ .switching)
    (others : ∀ q, q ≠ p → (next.Running q ↔ m.Running q)) : Control next := by
  refine moved control modes before lock (some p) ?_ ?_ ?_ ?_ ?_ ?_
  · rw [currents, ← onCpu, update_eq_self]
  · rw [process]
    simp
  · intro q d same onD
    exact control.unique d c q onD (onCpu.trans same)
  · intro q same
    rw [← Option.some.inj same]
    exact enters
  · intro q onC left
    exact absurd (onCpu.symm.trans onC) left
  · intro q other _
    exact others q fun same => other (congrArg some same.symm)

theorem goesOn (onCpu : m.current c = some p) (currents : next.current = m.current) (goes : m.mode c ≠ .switching)
    (process : mode.scheduler = false) (still : mode ≠ .switching)
    (running : ∀ q, next.Running q ↔ m.Running q) : Control next := by
  refine remoded control modes before lock onCpu currents process ?_ fun q _ => running q
  exact ⟨fun _ => still, fun _ => (running p).mpr (control.isRunning onCpu goes)⟩

theorem scans (is : m.mode c = old) (home : old.scheduler = true) (currents : next.current = m.current)
    (scheduler : mode.scheduler = true) (tables : next.table = m.table) : Control next := by
  have atHome : m.current c = none := (control.current c).mpr (is ▸ home)
  refine moved control modes before lock none ?_ (iff_of_true rfl scheduler) nofun nofun ?_ fun _ _ _ => ?_
  · rw [currents, ← atHome, update_eq_self]
  · intro p onCpu
    rw [atHome] at onCpu
    cases onCpu
  · rw [Machine.Running, tables, Machine.Running]

end Moves

end Control

/-! ## What sections do to the running processes -/

theorem running_set_iff {p : Slot} {proc : Proc}
    (same : proc.state = .RUNNING ↔ (table.proc p).state = .RUNNING) (q : Slot) :
    ((table.set p proc).proc q).state = .RUNNING ↔ (table.proc q).state = .RUNNING := by
  by_cases here : q = p
  · rw [here, Table.set_same]
    exact same
  · rw [Table.set_other _ _ here]

theorem running_set_other {p q : Slot} {proc : Proc} (other : q ≠ p) :
    ((table.set p proc).proc q).state = .RUNNING ↔ (table.proc q).state = .RUNNING := by
  rw [Table.set_other _ _ other]

theorem running_wakeup1 (chan : Option Chan) (table : Table) (q : Slot) :
    ((wakeup1 chan table).proc q).state = .RUNNING ↔ (table.proc q).state = .RUNNING :=
  (stirred_wake chan (table.proc q)).state_iff .RUNNING nofun nofun

theorem running_kill (pid : Pid) (table : Table) (q : Slot) :
    ((kill pid table).2.proc q).state = .RUNNING ↔ (table.proc q).state = .RUNNING := by
  cases kill_cases pid table with
  | inl missed => rw [missed.1]
  | inr found =>
    obtain ⟨p, _, _, stirred, _, others⟩ := found
    by_cases same : q = p
    · rw [same]
      exact stirred.state_iff .RUNNING nofun nofun
    · rw [others q same]

/-! ## Making children -/

/-- A process that makes a child is alive, and the child is its alone. -/
structure Forking (m : Machine Cpu) : Prop where
  embryo : ∀ p np, (m.point p).forking = some np → (m.table.proc np).state = .EMBRYO
  alive : ∀ p np, (m.point p).forking = some np →
    (m.table.proc p).state = .RUNNING ∨ (m.table.proc p).state = .RUNNABLE
  unique : ∀ p q np, (m.point p).forking = some np → (m.point q).forking = some np → p = q

theorem Forking.child {p np : Slot} (forking : Forking m) (at_ : m.point p = point)
    (makes : point.forking = some np) : (m.table.proc np).state = .EMBRYO :=
  forking.embryo p np (at_ ▸ makes)

/-! ## The invariant along a step -/

variable [DecidableEq Cpu] {event : Option Event}

theorem Control.step (control : Control m) (forking : Forking m) (step : Step m event next) : Control next := by
  have tidied (p q : Slot) : m.Running q ↔
      ((m.table.set p { m.table.proc p with chan := none }).proc q).state = .RUNNING := by
    refine (running_set_iff ?_ q).symm
    exact .rfl
  cases step with
  | acquire idle free => exact control.scans rfl (.inl free) rfl idle rfl rfl rfl rfl
  | @skip c k at_ _ =>
    have owner := control.owner at_ rfl
    exact control.scans rfl (.inr owner) owner at_ rfl rfl rfl rfl
  | @pick c k scans runnable =>
    have atHome : m.current c = none := (control.current c).mpr (scans ▸ rfl)
    have owner := control.owner scans rfl
    refine control.moved rfl (.inr owner) owner (some k) rfl (by simp [Mode.scheduler]) ?_ ?_ ?_ ?_
    · -- a runnable process that is current somewhere is in `sched` there, with the lock
      intro p d same onD
      obtain rfl := Option.some.inj same
      by_cases switching : m.mode d = .switching
      · exact Option.some.inj ((control.owner switching rfl).symm.trans owner)
      · have running := control.isRunning onD switching
        exact absurd (runnable.symm.trans running) nofun
    · intro p same
      obtain rfl := Option.some.inj same
      simp [Machine.Running, Table.setState]
    · intro p onCpu
      rw [atHome] at onCpu
      cases onCpu
    · intro p other _
      exact running_set_other fun same => other (congrArg some same.symm)
  | leave at_ => exact control.scans rfl (.inr (control.owner at_ rfl)) rfl at_ rfl rfl rfl rfl
  | @back c p switching onCpu =>
    have owner := control.owner switching rfl
    refine control.moved rfl (.inr owner) owner none rfl (by simp [Mode.scheduler]) nofun nofun ?_ fun _ _ _ => .rfl
    intro q onC _ running
    exact (control.running c q onC).mp running switching
  | resume holds onCpu _ | waitFails holds onCpu _ _ =>
    exact control.goesOn rfl (.inr (control.owner holds rfl)) rfl onCpu rfl (holds ▸ nofun) rfl nofun fun _ => .rfl
  | @awake c p holds onCpu _ =>
    exact control.goesOn rfl (.inr (control.owner holds rfl)) rfl onCpu rfl (holds ▸ nofun) rfl nofun fun q => (tidied p q).symm
  | @awakeInWait c p => exact control.kept rfl rfl rfl fun q => (tidied p q).symm
  | wait runs onCpu _ free =>
    exact control.goesOn rfl (.inl free) rfl onCpu rfl (runs ▸ nofun) rfl nofun fun _ => .rfl
  | reap holds onCpu _ found =>
    exact control.goesOn rfl (.inr (control.owner holds rfl)) rfl onCpu rfl (holds ▸ nofun) rfl nofun
      (running_set_iff (iff_of_false nofun ((waitScan_found found).2 ▸ nofun)))
  | @waitSleeps c p holds onCpu _ _ =>
    have owner := control.owner holds rfl
    refine control.remoded rfl (.inr owner) owner onCpu rfl rfl ?_ fun q other => running_set_other other
    simp [Machine.Running, Table.putToSleep]
  | @yield c p runs onCpu free =>
    refine control.remoded rfl (.inl free) rfl onCpu rfl rfl ?_ fun q other => running_set_other other
    simp [Machine.Running, Table.setState]
  | @sleep c p chan runs onCpu _ free =>
    refine control.remoded rfl (.inl free) rfl onCpu rfl rfl ?_ fun q other => running_set_other other
    simp [Machine.Running, Table.putToSleep]
  | wakeup chan => exact control.kept rfl rfl rfl (running_wakeup1 (some chan) m.table)
  | kill pid => exact control.kept rfl rfl rfl (running_kill pid m.table)
  | @exit c p runs onCpu _ _ free =>
    have running : (m.table.proc p).state = .RUNNING := control.isRunning onCpu (runs ▸ nofun)
    refine control.remoded rfl (.inl free) rfl onCpu rfl rfl ?_ fun q other => ?_
    · have ended := exit_self (running ▸ nofun : (m.table.proc p).state ≠ .SLEEPING)
      simp [Machine.Running, ended]
    · exact (exit_other other).state_iff .RUNNING nofun nofun
  | embryo runs onCpu _ _ found =>
    exact control.kept rfl rfl rfl (running_set_iff (iff_of_false nofun (findUnused_state found ▸ nofun)))
  | noStack _ _ at_ | noMemory _ _ at_ | publish _ _ at_ =>
    exact control.kept rfl rfl rfl (running_set_iff (iff_of_false nofun (forking.child at_ rfl ▸ nofun)))
  | stack | memory | parent => exact control.kept rfl rfl rfl (running_set_iff .rfl)

end Control

/-! ## What a step does to the table -/

/-- States that only `allocproc`, `fork`, `exit` and `wait` enter or leave. -/
def ProcState.settled : ProcState → Bool
  | .UNUSED | .EMBRYO | .ZOMBIE => true
  | .SLEEPING | .RUNNABLE | .RUNNING => false

/-- A slot before and after a step that neither makes nor ends a process. -/
structure Proc.Calm (before after : Proc) : Prop where
  pid : after.pid = before.pid
  parent : after.parent = before.parent
  kstack : after.kstack = before.kstack
  pgdir : after.pgdir = before.pgdir
  state : ∀ state, state.settled = true → (after.state = state ↔ before.state = state)

theorem Proc.Calm.refl (proc : Proc) : proc.Calm proc := ⟨rfl, rfl, rfl, rfl, fun _ _ => .rfl⟩

theorem Proc.Stirred.calm {before after : Proc} (stirred : before.Stirred after) : before.Calm after := by
  refine ⟨stirred.pid, stirred.parent, stirred.kstack, stirred.pgdir, fun state settled => ?_⟩
  refine stirred.state_iff state (fun is => ?_) fun is => ?_
  · rw [is] at settled
    cases settled
  · rw [is] at settled
    cases settled

def Proc.Alive (proc : Proc) : Prop := proc.state = .RUNNING ∨ proc.state = .RUNNABLE

theorem calm_set {p : Slot} {proc : Proc} (pid : proc.pid = (table.proc p).pid)
    (parent : proc.parent = (table.proc p).parent) (kstack : proc.kstack = (table.proc p).kstack)
    (pgdir : proc.pgdir = (table.proc p).pgdir) (before : (table.proc p).state.settled = false)
    (after : proc.state.settled = false) (q : Slot) : (table.proc q).Calm ((table.set p proc).proc q) := by
  by_cases same : q = p
  · rw [same, Table.set_same]
    refine ⟨pid, parent, kstack, pgdir, fun state settled => ?_⟩
    constructor
    · intro is
      rw [is, settled] at after
      cases after
    · intro is
      rw [is, settled] at before
      cases before
  · rw [Table.set_other _ _ same]
    exact .refl _

/-- Where a process is in `fork`; every other point counts as `user`. -/
def Point.stage (point : Point) : Point := if point.preempted then point else .user

section Effects

variable {Cpu : Type} {m next : Machine Cpu} {event : Option Event}

structure Quiet (m next : Machine Cpu) : Prop where
  calm : ∀ q, (m.table.proc q).Calm (next.table.proc q)
  nextpid : next.table.nextpid = m.table.nextpid
  free : next.free = m.free
  stage : ∀ q, (next.point q).stage = (m.point q).stage
  alive : ∀ q, (m.point q).stage ≠ .user → (m.table.proc q).Alive → (next.table.proc q).Alive

/-- What a step does to the table, the free pages and the points. -/
inductive Effect (m : Machine Cpu) : Option Event → Machine Cpu → Prop
  | quiet {event : Option Event} {next : Machine Cpu} : Quiet m next →
      (event = none ∨ ∃ p, event = some (.waitFailed p)) → Effect m event next
  | reap {next : Machine Cpu} {p q : Slot} : m.point p = .waiting → m.Running p →
      m.table.waitScan p = .found q → next.table = m.table.reap q →
      next.free = m.table.release q m.free → next.point = update m.point p .user →
      Effect m (some (.reaped (m.table.proc p).pid q (m.table.proc q).pid)) next
  | exit {next : Machine Cpu} {p : Slot} : m.point p = .user → m.Running p → p ≠ initproc →
      next.table = exit p m.table → next.free = m.free → next.point = update m.point p .exited →
      Effect m (some (.exited (m.table.proc p).pid)) next
  | embryo {next : Machine Cpu} {p np : Slot} : m.point p = .user → m.Running p →
      m.table.findUnused = some np → next.table = m.table.embryo np → next.free = m.free →
      next.point = update m.point p (.allocated np) → Effect m (some .allocated) next
  | noStack {next : Machine Cpu} {p np : Slot} : m.point p = .allocated np →
      next.table = m.table.allocStack np none → next.free = m.free →
      next.point = update m.point p .user → Effect m none next
  | stack {next : Machine Cpu} {p np : Slot} {page : Frame} : m.point p = .allocated np →
      m.free page = true → next.table = m.table.allocStack np (some page) →
      next.free = update m.free page false →
      next.point = update (update m.point np .user) p (.stacked np) → Effect m none next
  | noMemory {next : Machine Cpu} {p np : Slot} : m.point p = .stacked np →
      next.table = m.table.copyMemory np none →
      (next.free = fun page => (m.table.proc np).kstack = some page || m.free page) →
      next.point = update m.point p .user → Effect m none next
  | memory {next : Machine Cpu} {p np : Slot} {page : Frame} : m.point p = .stacked np →
      m.free page = true → next.table = m.table.copyMemory np (some page) →
      next.free = update m.free page false →
      next.point = update m.point p (.copied np) → Effect m none next
  | parent {next : Machine Cpu} {p np : Slot} : m.point p = .copied np →
      next.table = m.table.setParent np p → next.free = m.free →
      next.point = update m.point p (.parented np) → Effect m none next
  | publish {next : Machine Cpu} {p np : Slot} : m.point p = .parented np →
      next.table = m.table.setState np .RUNNABLE → next.free = m.free →
      next.point = update m.point p .user →
      Effect m (some (.forked (m.table.proc p).pid (m.table.proc np).pid)) next

theorem stage_update {p : Slot} {old : Point} (at_ : m.point p = old) (before : old.stage = .user)
    (after : point.stage = .user) (q : Slot) : (update m.point p point q).stage = (m.point q).stage := by
  by_cases same : q = p
  · rw [same, update_self, after, at_, before]
  · rw [update_of_ne same]

theorem Quiet.of_set {p : Slot} {proc : Proc} (table : next.table = m.table.set p proc)
    (free : next.free = m.free) (stage : ∀ q, (next.point q).stage = (m.point q).stage)
    (calm : ∀ q, (m.table.proc q).Calm ((m.table.set p proc).proc q))
    (alive : (m.point p).stage ≠ .user → proc.Alive) : Quiet m next := by
  refine ⟨fun q => ?_, ?_, free, stage, fun q inFork before => ?_⟩
  · rw [table]
    exact calm q
  · rw [table]
    rfl
  · rw [table]
    by_cases same : q = p
    · rw [same, Table.set_same]
      exact alive (same ▸ inFork)
    · rw [Table.set_other _ _ same]
      exact before

theorem Proc.Stirred.alive {before after : Proc} (stirred : before.Stirred after)
    (alive : before.Alive) : after.Alive := by
  cases stirred.state with
  | inl same => exact alive.imp same.trans same.trans
  | inr woken => exact .inr woken.2

theorem kill_calm (pid : Pid) (table : Table) (q : Slot) : (table.proc q).Calm ((kill pid table).2.proc q) ∧
      ((table.proc q).Alive → ((kill pid table).2.proc q).Alive) := by
  cases kill_cases pid table with
  | inl missed =>
    rw [missed.1]
    exact ⟨.refl _, id⟩
  | inr found =>
    obtain ⟨p, _, _, stirred, _, others⟩ := found
    by_cases same : q = p
    · rw [same]
      have calm := stirred.calm
      exact ⟨{ calm with }, fun alive => stirred.alive alive⟩
    · rw [others q same]
      exact ⟨.refl _, id⟩

theorem kill_nextpid (pid : Pid) (table : Table) : (kill pid table).2.nextpid = table.nextpid := by
  cases kill_cases pid table with
  | inl missed => rw [missed.1]
  | inr found =>
    obtain ⟨_, _, _, _, same, _⟩ := found
    exact same

variable [DecidableEq Cpu]

theorem Step.effect (control : Control m) (step : Step m event next) : Effect m event next := by
  have runs {c : Cpu} {p : Slot} (onCpu : m.current c = some p) (goes : m.mode c ≠ .switching) :
      (m.table.proc p).state = .RUNNING := control.isRunning onCpu goes
  cases step with
  | acquire | skip | leave | back | resume => exact .quiet ⟨fun _ => .refl _, rfl, rfl, fun _ => rfl, fun _ _ => id⟩ (.inl rfl)
  | @pick c k scans runnable =>
    refine .quiet (.of_set rfl rfl (fun _ => rfl) (calm_set rfl rfl rfl rfl ?_ rfl) fun _ => .inl rfl) (.inl rfl)
    rw [runnable]
    rfl
  | @awake c p holds onCpu at_ | @awakeInWait c p holds onCpu at_ =>
    have running := runs onCpu (holds ▸ nofun)
    refine .quiet (.of_set rfl rfl (stage_update at_ rfl rfl)
      (calm_set rfl rfl rfl rfl (running ▸ rfl) (running ▸ rfl)) fun _ => .inl running) (.inl rfl)
  | wait _ _ at_ =>
    exact .quiet ⟨fun _ => .refl _, rfl, rfl, stage_update at_ rfl rfl, fun _ _ => id⟩ (.inl rfl)
  | reap holds onCpu at_ found =>
    exact .reap at_ (runs onCpu (holds ▸ nofun)) found rfl rfl rfl
  | waitFails _ _ at_ =>
    exact .quiet ⟨fun _ => .refl _, rfl, rfl, stage_update at_ rfl rfl, fun _ _ => id⟩ (.inr ⟨_, rfl⟩)
  | @waitSleeps c p holds onCpu at_ _ | @sleep c p chan holds onCpu at_ _ =>
    have running := runs onCpu (holds ▸ nofun)
    refine .quiet (.of_set rfl rfl (stage_update at_ rfl rfl)
      (calm_set rfl rfl rfl rfl (running ▸ rfl) rfl) fun inFork => ?_) (.inl rfl)
    exact absurd (congrArg Point.stage at_) inFork
  | @yield c p goes onCpu _ =>
    have running := runs onCpu (goes ▸ nofun)
    exact .quiet (.of_set rfl rfl (fun _ => rfl)
      (calm_set rfl rfl rfl rfl (running ▸ rfl) rfl) fun _ => .inr rfl) (.inl rfl)
  | wakeup chan =>
    have stirred (q : Slot) := stirred_wake (some chan) (m.table.proc q)
    exact .quiet ⟨fun q => (stirred q).calm, rfl, rfl, fun _ => rfl, fun q _ => (stirred q).alive⟩ (.inl rfl)
  | kill pid =>
    have calm := kill_calm pid m.table
    exact .quiet ⟨fun q => (calm q).1, kill_nextpid pid m.table, rfl, fun _ => rfl, fun q _ => (calm q).2⟩ (.inl rfl)
  | exit goes onCpu at_ notInit _ =>
    exact .exit at_ (runs onCpu (goes ▸ nofun)) notInit rfl rfl rfl
  | embryo goes onCpu at_ _ found =>
    exact .embryo at_ (runs onCpu (goes ▸ nofun)) found rfl rfl rfl
  | noStack _ _ at_ => exact .noStack at_ rfl rfl rfl
  | stack _ _ at_ free => exact .stack at_ free rfl rfl rfl
  | noMemory _ _ at_ => exact .noMemory at_ rfl rfl rfl
  | memory _ _ at_ free => exact .memory at_ free rfl rfl rfl
  | parent _ _ at_ => exact .parent at_ rfl rfl rfl
  | publish _ _ at_ => exact .publish at_ rfl rfl rfl

end Effects

/-! ## The invariants of the table along a step -/

theorem Point.stage_forking (point : Point) : point.stage.forking = point.forking := by
  cases point <;> rfl

theorem Point.stage_copying (point : Point) : point.stage.copying = point.copying := by
  cases point <;> rfl

theorem Point.forking_of_copying {np : Slot} (copies : point.copying = some np) : point.forking = some np := by
  cases point <;> first | exact copies | cases copies

theorem Point.stage_ne_user {np : Slot} (makes : point.forking = some np) : point.stage ≠ .user := by
  intro outside
  rw [← point.stage_forking, outside] at makes
  cases makes

variable {page : Frame}

section Invariants

variable {Cpu : Type} {m next : Machine Cpu} {event : Option Event}

namespace Forking

variable {p np q x : Slot} {proc : Proc}

variable (forking : Forking m)
include forking

theorem moved (points : ∀ q, q ≠ p → (next.point q).forking = (m.point q).forking)
    (mine : ∀ np, (next.point p).forking = some np → (next.table.proc np).state = .EMBRYO ∧ (next.table.proc p).Alive ∧ ∀ q, (m.point q).forking = some np → q = p)
    (others : ∀ q np, q ≠ p → (m.point q).forking = some np → (next.table.proc np).state = .EMBRYO ∧ (next.table.proc q).Alive) :
    Forking next := by
  constructor
  · intro q np makes
    by_cases same : q = p
    · rw [same] at makes
      exact (mine np makes).1
    · rw [points q same] at makes
      exact (others q np same makes).1
  · intro q np makes
    by_cases same : q = p
    · rw [same] at makes ⊢
      exact (mine np makes).2.1
    · rw [points q same] at makes
      exact (others q np same makes).2
  · intro q r np makesQ makesR
    by_cases qp : q = p
    · by_cases rp : r = p
      · rw [qp, rp]
      · rw [qp] at makesQ
        rw [points r rp] at makesR
        exact absurd ((mine np makesQ).2.2 r makesR) rp
    · rw [points q qp] at makesQ
      by_cases rp : r = p
      · rw [rp] at makesR
        exact absurd ((mine np makesR).2.2 q makesQ) qp
      · rw [points r rp] at makesR
        exact forking.unique q r np makesQ makesR

theorem notEmbryo (makes : (m.point p).forking = some np) : (m.table.proc p).state ≠ .EMBRYO := by
  cases forking.alive p np makes with
  | inl running => rw [running]; nofun
  | inr runnable => rw [runnable]; nofun

theorem apart (makes : (m.point q).forking = some np) (notChild : x ≠ np) (notMaker : x ≠ q) :
    ((m.table.set x proc).proc np).state = .EMBRYO ∧ ((m.table.set x proc).proc q).Alive := by
  rw [Table.set_other _ _ notChild.symm, Table.set_other _ _ notMaker.symm]
  exact ⟨forking.embryo q np makes, forking.alive q np makes⟩

theorem apart_of_state (makes : (m.point q).forking = some np)
    (notEmbryo : (m.table.proc x).state ≠ .EMBRYO) (notAlive : ¬ (m.table.proc x).Alive) :
    ((m.table.set x proc).proc np).state = .EMBRYO ∧ ((m.table.set x proc).proc q).Alive := by
  refine forking.apart makes (fun same => ?_) fun same => ?_
  · exact notEmbryo (same ▸ forking.embryo q np makes)
  · exact notAlive (same ▸ forking.alive q np makes)

section

variable (mine : (m.point p).forking = some x)
include mine

theorem apart_of_embryo (other : q ≠ p) (makes : (m.point q).forking = some np) :
    ((m.table.set x proc).proc np).state = .EMBRYO ∧ ((m.table.set x proc).proc q).Alive := by
  refine forking.apart makes (fun same => ?_) fun same => ?_
  · exact other (forking.unique q p np makes (same ▸ mine))
  · exact forking.notEmbryo makes (same ▸ forking.embryo p x mine)

theorem finishes (table : next.table = m.table.set x proc)
    (point : next.point = update m.point p .user) : Forking next := by
  refine forking.moved (p := p) (fun q other => ?_) ?_ fun q np other makes => ?_
  · rw [point, update_of_ne other]
  · rw [point, update_self]
    nofun
  · rw [table]
    exact forking.apart_of_embryo mine other makes

theorem goesOn (table : next.table = m.table.set x proc) (state : proc.state = .EMBRYO)
    (points : ∀ q, q ≠ p → (next.point q).forking = (m.point q).forking)
    (still : (next.point p).forking = some x) : Forking next := by
  refine forking.moved (p := p) points (fun np makes => ?_) fun q np other makes => ?_
  · obtain rfl := Option.some.inj (still.symm.trans makes)
    refine ⟨?_, ?_, fun q makesQ => forking.unique q p x makesQ mine⟩
    · rw [table, Table.set_same]
      exact state
    · have apart : p ≠ x := fun same => forking.notEmbryo mine (same ▸ forking.embryo p x mine)
      rw [table, Table.set_other _ _ apart]
      exact forking.alive p x mine
  · rw [table]
    exact forking.apart_of_embryo mine other makes

end

theorem step (effect : Effect m event next) : Forking next := by
  cases effect with
  | quiet quiet _ =>
    have same (q : Slot) : (next.point q).forking = (m.point q).forking := by
      rw [← Point.stage_forking, quiet.stage, Point.stage_forking]
    constructor
    · intro p np makes
      rw [same] at makes
      exact ((quiet.calm np).state .EMBRYO rfl).mpr (forking.embryo p np makes)
    · intro p np makes
      rw [same] at makes
      exact quiet.alive p (Point.stage_ne_user makes) (forking.alive p np makes)
    · intro p q np makesP makesQ
      rw [same] at makesP makesQ
      exact forking.unique p q np makesP makesQ
  | @reap _ p x at_ _ found table _ point =>
    have zombie := (waitScan_found found).2
    refine forking.moved (p := p) (fun q other => ?_) ?_ fun q np _ makes => ?_
    · rw [point, update_of_ne other]
    · rw [point, update_self]
      nofun
    · rw [table]
      refine forking.apart_of_state makes (zombie ▸ nofun) ?_
      unfold Proc.Alive
      rw [zombie]
      nofun
  | @exit _ p at_ running notInit table _ point =>
    refine forking.moved (p := p) (fun q other => ?_) ?_ fun q np other makes => ?_
    · rw [point, update_of_ne other]
    · rw [point, update_self]
      nofun
    · have notChild : np ≠ p := by
        rintro rfl
        exact absurd (running.symm.trans (forking.embryo q np makes)) nofun
      rw [table]
      refine ⟨((exit_other notChild).state_iff .EMBRYO nofun nofun).mpr (forking.embryo q np makes), ?_⟩
      exact (exit_other other).alive (forking.alive q np makes)
  | @embryo _ p x at_ running found table _ point =>
    have unused := findUnused_state found
    have apart : x ≠ p := by
      rintro rfl
      exact absurd (unused.symm.trans running) nofun
    have notAlive : ¬ (m.table.proc x).Alive := by
      unfold Proc.Alive
      rw [unused]
      nofun
    refine forking.moved (p := p) (fun q other => ?_) ?_ fun q np _ makes => ?_
    · rw [point, update_of_ne other]
    · rw [point, update_self, table]
      intro np makes
      obtain rfl := Option.some.inj makes
      refine ⟨congrArg Proc.state (Table.set_same ..), ?_, fun q makesQ => ?_⟩
      · exact .inl ((congrArg Proc.state (Table.set_other _ _ apart.symm)).trans running)
      · exact absurd (unused.symm.trans (forking.embryo q _ makesQ)) nofun
    · rw [table]
      exact forking.apart_of_state makes (unused ▸ nofun) notAlive
  | noStack at_ table _ point | noMemory at_ table _ point | publish at_ table _ point =>
    exact forking.finishes (at_ ▸ rfl) table point
  | @stack _ p x page at_ _ table _ point =>
    have mine : (m.point p).forking = some x := at_ ▸ rfl
    have embryo := forking.embryo p x mine
    refine forking.goesOn mine table embryo (fun q other => ?_) ?_
    · -- the child has not made a child
      rw [point, update_of_ne other]
      by_cases child : q = x
      · rw [child, update_self]
        cases makes : (m.point x).forking with
        | none => rfl
        | some np => exact absurd embryo (forking.notEmbryo makes)
      · rw [update_of_ne child]
    · rw [point, update_self]
      rfl
  | @memory _ p x page at_ _ table _ point | @parent _ p x at_ table _ point =>
    have mine : (m.point p).forking = some x := at_ ▸ rfl
    refine forking.goesOn mine table (forking.embryo p x mine) (fun q other => ?_) ?_
    · rw [point, update_of_ne other]
    · rw [point, update_self]
      rfl

end Forking

/-! ## The pages of the slots -/

/-- The slot has a page directory of its own; the pointer in a slot given back is
stale. -/
def Machine.HasDir (m : Machine Cpu) (q : Slot) : Prop :=
  (m.table.proc q).state ≠ .UNUSED ∧ (m.table.proc q).state ≠ .EMBRYO ∨ ∃ p, (m.point p).copying = some q

def Machine.Owns (m : Machine Cpu) (q : Slot) (page : Frame) : Prop :=
  (m.table.proc q).kstack = some page ∨ m.HasDir q ∧ (m.table.proc q).pgdir = some page

structure Pages (m : Machine Cpu) : Prop where
  taken : ∀ q page, m.Owns q page → m.free page = false
  alone : ∀ q r page, m.Owns q page → m.Owns r page → q = r

namespace Pages

theorem kept (pages : Pages m) (free : next.free = m.free)
    (owns : ∀ q page, next.Owns q page → m.Owns q page) : Pages next := by
  constructor
  · intro q page owned
    rw [free]
    exact pages.taken q page (owns q page owned)
  · intro q r page first second
    exact pages.alone q r page (owns q page first) (owns r page second)

theorem dropped {x : Slot} (pages : Pages m) (owns : ∀ q page, next.Owns q page → m.Owns q page ∧ q ≠ x)
    (free : ∀ page, next.free page = true → m.free page = true ∨ m.Owns x page) : Pages next := by
  constructor
  · intro q page owned
    obtain ⟨before, other⟩ := owns q page owned
    cases isFree : next.free page with
    | false => rfl
    | true =>
      cases free page isFree with
      | inl was => exact absurd (pages.taken q page before) (by rw [was]; nofun)
      | inr mine => exact absurd (pages.alone q x page before mine) other
  · intro q r page first second
    exact pages.alone q r page (owns q page first).1 (owns r page second).1

theorem added {x : Slot} (pages : Pages m) (was : m.free page = true) (free : next.free = update m.free page false)
    (owns : ∀ q other, next.Owns q other → m.Owns q other ∨ q = x ∧ other = page) : Pages next := by
  have unowned (q : Slot) : ¬ m.Owns q page := fun owned => by
    rw [pages.taken q page owned] at was
    cases was
  constructor
  · intro q other owned
    rw [free]
    cases owns q other owned with
    | inl before =>
      have apart : other ≠ page := fun same => unowned q (same ▸ before)
      rw [update_of_ne apart]
      exact pages.taken q other before
    | inr new => rw [new.2, update_self]
  · intro q r other first second
    cases owns q other first with
    | inl before =>
      cases owns r other second with
      | inl beforeToo => exact pages.alone q r other before beforeToo
      | inr new => exact absurd (new.2 ▸ before) (unowned q)
    | inr new =>
      cases owns r other second with
      | inl before => exact absurd (new.2 ▸ before) (unowned r)
      | inr newToo => rw [new.1, newToo.1]

end Pages

theorem copying_update {points : Slot → Point} {p r q : Slot} (copies : (update points p point r).copying = some q)
    (mine : point.copying = some q → (points p).copying = some q) : (points r).copying = some q := by
  by_cases same : r = p
  · rw [same, update_self] at copies
    rw [same]
    exact mine copies
  · rw [update_of_ne same] at copies
    exact copies

theorem owns_set {q x : Slot} {proc : Proc} (tables : next.table = table)
    (sets : table.proc = update m.table.proc x proc)
    (copying : q ≠ x → ∀ p, (next.point p).copying = some q → (m.point p).copying = some q)
    (owned : next.Owns q page) : (m.Owns q page ∧ q ≠ x) ∨
      q = x ∧ (proc.kstack = some page ∨ next.HasDir x ∧ proc.pgdir = some page) := by
  by_cases same : q = x
  · subst same
    unfold Machine.Owns at owned
    rw [tables, sets, update_self] at owned
    exact .inr ⟨rfl, owned⟩
  · unfold Machine.Owns Machine.HasDir at owned ⊢
    rw [tables, sets, update_of_ne same] at owned
    exact .inl ⟨owned.imp id (And.imp (Or.imp id (Exists.imp (copying same))) id), same⟩

/-- A slot that has no page directory after the step. -/
theorem owns_bare {q x : Slot} {proc : Proc} (tables : next.table = table)
    (sets : table.proc = update m.table.proc x proc) (state : proc.state = .UNUSED ∨ proc.state = .EMBRYO)
    (copying : ∀ {q} p, (next.point p).copying = some q → (m.point p).copying = some q)
    (uncopied : ∀ p, (m.point p).copying ≠ some x) (owned : next.Owns q page) :
    (m.Owns q page ∧ q ≠ x) ∨ q = x ∧ proc.kstack = some page := by
  rcases owns_set tables sets (fun _ => copying) owned with before | ⟨same, stack | ⟨used | ⟨p, copies⟩, _⟩⟩
  · exact .inl before
  · exact .inr ⟨same, stack⟩
  · rw [tables, sets, update_self] at used
    exact (state.elim used.1 used.2).elim
  · exact absurd (copying p copies) (uncopied p)

theorem Pages.step (forking : Forking m) (pages : Pages m) (effect : Effect m event next) : Pages next := by
  -- a slot that no process copies memory to
  have uncopied {x : Slot} (notEmbryo : (m.table.proc x).state ≠ .EMBRYO) (r : Slot) :
      (m.point r).copying ≠ some x := fun copies =>
    notEmbryo (forking.embryo r x (Point.forking_of_copying copies))
  have notYet {p x : Slot} (mine : (m.point p).forking = some x)
      (early : (m.point p).copying = none) (r : Slot) : (m.point r).copying ≠ some x := by
    intro copies
    obtain rfl := forking.unique r p x (Point.forking_of_copying copies) mine
    rw [early] at copies
    cases copies
  -- the process goes on at a point where it copies nothing new
  have moved {p q : Slot} {point : Point} (points : next.point = update m.point p point)
      (mine : point.copying = some q → (m.point p).copying = some q) (r : Slot)
      (copies : (next.point r).copying = some q) : (m.point r).copying = some q :=
    copying_update (points ▸ copies) mine
  cases effect with
  | quiet quiet _ =>
    refine pages.kept quiet.free fun q page owned => ?_
    have calm := quiet.calm q
    have dir (has : next.HasDir q) : m.HasDir q := by
      cases has with
      | inl used =>
        exact .inl ⟨fun unused => used.1 ((calm.state .UNUSED rfl).mpr unused),
          fun embryo => used.2 ((calm.state .EMBRYO rfl).mpr embryo)⟩
      | inr copied =>
        obtain ⟨p, copies⟩ := copied
        rw [← Point.stage_copying, quiet.stage, Point.stage_copying] at copies
        exact .inr ⟨p, copies⟩
    unfold Machine.Owns at owned ⊢
    rw [calm.kstack, calm.pgdir] at owned
    exact owned.imp id (And.imp dir id)
  | @reap _ p x at_ _ found table free point =>
    have zombie := (waitScan_found found).2
    refine pages.dropped (x := x) (fun q page owned => ?_) fun page isFree => ?_
    · rcases owns_bare table rfl (.inl rfl) (moved point nofun) (uncopied (zombie ▸ nofun)) owned with
        before | ⟨_, stack⟩
      · exact before
      · cases stack
    · rw [free] at isFree
      unfold Table.release at isFree
      simp only [Bool.or_eq_true, decide_eq_true_eq] at isFree
      rcases isFree with (stack | dir) | before
      · exact .inr (.inl stack)
      · exact .inr (.inr ⟨.inl ⟨zombie ▸ nofun, zombie ▸ nofun⟩, dir⟩)
      · exact .inl before
  | @exit _ p at_ running notInit table free point =>
    refine pages.kept free fun q page owned => ?_
    unfold Machine.Owns Machine.HasDir at owned ⊢
    rw [table] at owned
    by_cases same : q = p
    · rw [same] at owned ⊢
      rw [exit_self (running ▸ nofun)] at owned
      refine owned.imp id (And.imp (fun _ => .inl ?_) id)
      exact ⟨running ▸ nofun, running ▸ nofun⟩
    · have stirred : Proc.Stirred _ ((exit p m.table).proc q) := exit_other same
      rw [stirred.kstack, stirred.pgdir, Ne, Ne, stirred.state_iff .UNUSED nofun nofun,
        stirred.state_iff .EMBRYO nofun nofun] at owned
      exact owned.imp id (And.imp (Or.imp id (Exists.imp (moved point nofun))) id)
  | @embryo _ p x at_ running found table free point =>
    have unused := findUnused_state found
    refine pages.kept free fun q page owned => ?_
    rcases owns_bare table rfl (.inr rfl) (moved point nofun) (uncopied (unused ▸ nofun)) owned with
      before | ⟨rfl, stack⟩
    · exact before.1
    · exact .inl stack
  | @noStack _ p x at_ table free point =>
    have mine : (m.point p).forking = some x := at_ ▸ rfl
    refine pages.kept free fun q page owned => ?_
    rcases owns_bare table rfl (.inl rfl) (moved point nofun) (notYet mine (at_ ▸ rfl)) owned with
      before | ⟨_, stack⟩
    · exact before.1
    · cases stack
  | @stack _ p x page at_ was table free point =>
    have mine : (m.point p).forking = some x := at_ ▸ rfl
    have copying {q : Slot} (r : Slot) (copies : (next.point r).copying = some q) : (m.point r).copying = some q := by
      rw [point] at copies
      exact copying_update (copying_update copies nofun) nofun
    refine pages.added (x := x) was free fun q other owned => ?_
    rcases owns_bare table rfl (.inr (forking.embryo p x mine)) copying (notYet mine (at_ ▸ rfl)) owned with
      before | ⟨rfl, stack⟩
    · exact .inl before.1
    · exact .inr ⟨rfl, (Option.some.inj stack).symm⟩
  | @noMemory _ p x at_ table free point =>
    refine pages.dropped (x := x) (fun q page owned => ?_) fun page isFree => ?_
    · rcases owns_set table rfl (fun _ => moved point nofun) owned with
        before | ⟨rfl, stack | ⟨_, dir⟩⟩
      · exact before
      · cases stack
      · cases dir
    · rw [free] at isFree
      simp only [Bool.or_eq_true, decide_eq_true_eq] at isFree
      exact isFree.elim (fun stack => .inr (.inl stack)) .inl
  | @memory _ p x page at_ was table free point =>
    refine pages.added (x := x) was free fun q other owned => ?_
    rcases owns_set table rfl (fun same => moved point fun new =>
      absurd (Option.some.inj new).symm same) owned with before | ⟨rfl, stack | ⟨_, dir⟩⟩
    · exact .inl before.1
    · exact .inl (.inl stack)
    · exact .inr ⟨rfl, (Option.some.inj dir).symm⟩
  | @parent _ p x at_ table free point =>
    refine pages.kept free fun q page owned => ?_
    rcases owns_set table rfl (fun _ => moved point fun new => at_ ▸ new) owned with
      before | ⟨rfl, stack | ⟨_, dir⟩⟩
    · exact before.1
    · exact .inl stack
    · exact .inr ⟨.inr ⟨p, at_ ▸ rfl⟩, dir⟩
  | @publish _ p x at_ table free point =>
    refine pages.kept free fun q page owned => ?_
    rcases owns_set table rfl (fun _ => moved point nofun) owned with
      before | ⟨rfl, stack | ⟨_, dir⟩⟩
    · exact before.1
    · exact .inl stack
    · exact .inr ⟨.inr ⟨p, at_ ▸ rfl⟩, dir⟩

/-! ## Runs -/

structure Consistent (m : Machine Cpu) : Prop where
  control : Control m
  forking : Forking m
  pages : Pages m

variable [DecidableEq Cpu]

theorem Consistent.step (consistent : Consistent m) (step : Step m event next) : Consistent next := by
  have effect := step.effect consistent.control
  exact ⟨consistent.control.step consistent.forking step, consistent.forking.step effect,
    consistent.pages.step consistent.forking effect⟩

end Invariants

theorem userinit_eq (kstack pgdir : Frame) : userinit kstack pgdir =
    { proc := update (fun _ => {}) initproc
        { state := .RUNNABLE, pid := 1, kstack := some kstack, pgdir := some pgdir },
      nextpid := 2 } := by
  have found : Table.findUnused {} = some initproc := by
    decide +kernel
  unfold userinit allocproc
  rw [found]
  ext p
  · dsimp only [Table.setState, Table.allocStack, Table.embryo, Table.set]
    simp only [update_self, update_idem]
  · rfl

section Runs

variable {Cpu : Type} {kstack pgdir : Frame}

theorem userinit_other {q : Slot} (other : q ≠ initproc) : (userinit kstack pgdir).proc q = {} := by
  rw [userinit_eq]
  simp only [update_of_ne other]

theorem userinit_first : (userinit kstack pgdir).proc initproc =
    { state := .RUNNABLE, pid := 1, kstack := some kstack, pgdir := some pgdir } := by
  rw [userinit_eq]
  simp only [update_self]

theorem boot_owns {q : Slot} (owned : (Machine.boot Cpu kstack pgdir).Owns q page) :
    q = initproc ∧ (page = kstack ∨ page = pgdir) := by
  have first : q = initproc := by
    by_contra other
    unfold Machine.Owns Machine.boot at owned
    rw [userinit_other other] at owned
    rcases owned with stack | ⟨_, dir⟩
    · cases stack
    · cases dir
  refine ⟨first, ?_⟩
  rw [first] at owned
  rcases owned with stack | ⟨_, dir⟩
  · exact .inl (Option.some.inj stack).symm
  · exact .inr (Option.some.inj dir).symm

theorem boot_consistent : Consistent (Machine.boot Cpu kstack pgdir) := by
  refine ⟨⟨?_, ?_, nofun, nofun, fun p running => ?_⟩, ⟨nofun, nofun, nofun⟩, ?_, ?_⟩
  · intro c
    exact ⟨nofun, nofun⟩
  · intro c
    exact ⟨fun _ => rfl, fun _ => rfl⟩
  · unfold Machine.Running Machine.boot at running
    by_cases first : p = initproc
    · rw [first] at running
      cases running
    · rw [userinit_other first] at running
      cases running
  · intro q page owned
    rcases (boot_owns owned).2 with rfl | rfl
    · simp [Machine.boot]
    · simp [Machine.boot]
  · intro q r page first second
    rw [(boot_owns first).1, (boot_owns second).1]

variable [DecidableEq Cpu] {events : List Event} {m next : Machine Cpu}

theorem consistent_of_run (run : Runs (Machine.boot Cpu kstack pgdir) events m) : Consistent m := by
  induction run with
  | refl => exact boot_consistent
  | snoc _ last ih => exact ih.step last

/-- Between sections a process is `RUNNING` exactly when it is current on one
processor, no other process is current, and `wait` frees no page of a process
that is current. -/
theorem runs_on_one_cpu (run : Runs (Machine.boot Cpu kstack pgdir) events m) : (m.lock = none →
      (∀ p, (m.table.proc p).state = .RUNNING ↔ ∃! c, m.current c = some p) ∧
      ∀ c p, m.current c = some p → (m.table.proc p).state = .RUNNING) ∧
    ∀ parent q child next, Step m (some (.reaped parent q child)) next → ∀ c p page, m.current c = some p →
        (m.table.proc q).kstack = some page ∨ (m.table.proc q).pgdir = some page →
        (m.table.proc p).kstack ≠ some page ∧ (m.table.proc p).pgdir ≠ some page := by
  have consistent := consistent_of_run run
  have control := consistent.control
  constructor
  · intro unlocked
    have running (c : Cpu) (p : Slot) (onCpu : m.current c = some p) : (m.table.proc p).state = .RUNNING := by
      refine control.isRunning onCpu fun switching => ?_
      exact absurd ((control.owner switching rfl).symm.trans unlocked) nofun
    refine ⟨fun p => ⟨fun is => ?_, fun ⟨c, onCpu, _⟩ => running c p onCpu⟩, running⟩
    obtain ⟨c, onCpu⟩ := control.only p is
    exact ⟨c, onCpu, fun d onD => control.unique d c p onD onCpu⟩
  · intro parent q child next step c p page onCpu freed
    cases step with
    | @reap holder _ _ holds _ _ found =>
      have zombie := (waitScan_found found).2
      -- the only processor that could be in `sched` is the one that reaps
      have running : (m.table.proc p).state = .RUNNING := by
        refine control.isRunning onCpu fun switching => ?_
        have same : c = holder := Option.some.inj
          ((control.owner switching rfl).symm.trans (control.owner holds rfl))
        rw [same, holds] at switching
        cases switching
      have owned : m.Owns q page := freed.imp id fun dir =>
        ⟨.inl ⟨zombie ▸ nofun, zombie ▸ nofun⟩, dir⟩
      have apart (mine : m.Owns p page) : False := by
        rw [consistent.pages.alone p q page mine owned, zombie] at running
        cases running
      exact ⟨fun stack => apart (.inl stack),
        fun dir => apart (.inr ⟨.inl ⟨running ▸ nofun, running ▸ nofun⟩, dir⟩)⟩

end Runs

/-- The first process runs on one of two processors. -/
theorem runs_on_one_cpu_first : ∃ m : Machine Bool, m.lock = none ∧
    m.current true = some initproc ∧ ∃! c, m.current c = some initproc := by
  have scanned : Runs (Machine.boot Bool 5 6) [] _ := .snoc .refl (.acquire (c := true) rfl rfl)
  have picked : Runs (Machine.boot Bool 5 6) [] _ := .snoc scanned
    (.pick (c := true) (k := initproc) rfl (congrArg Proc.state userinit_first))
  have resumed : Runs (Machine.boot Bool 5 6) [] _ := .snoc picked (.resume (c := true) (p := initproc) rfl rfl rfl)
  have shown := (runs_on_one_cpu resumed).1 rfl
  exact ⟨_, rfl, rfl, (shown.1 initproc).mp (shown.2 true initproc rfl)⟩

end Xv6Dedup.Process
