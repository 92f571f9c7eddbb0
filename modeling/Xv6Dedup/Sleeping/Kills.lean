import Xv6Dedup.Sleeping.Rules

/-!
# Kills that arrive before a process sleeps

`piperead`, `pipewrite`, `consoleread` and `sys_sleep` test `proc->killed` under
their own lock, and `kill` sets it under `ptable.lock`. A kill between the test
and the `acquire(&ptable.lock)` of `sleep` finds no process to wake, and the
process then sleeps. When no kill falls in between, no killed process sleeps there.
-/

set_option autoImplicit false

namespace Xv6Dedup.Sleeping

open Function Monitor

/-- After the test of `killed` and before the end of `sleep`. -/
def Point.window : Point → Bool
  | .writeFull _ _ | .writeSleep _ _ | .readSleep _ _ | .consoleSleep _ _ | .sleepSleep _ _ => true
  | _ => false

def Point.isKill : Point → Bool
  | .kill _ => true
  | _ => false

theorem Point.window_of_storage {point : Point} (storage : point.storage = true) : point.window = false := by
  cases point <;> first | rfl | cases storage

/-- What a step does to the flags, and how a process gets into the window. -/
inductive Killing (agent : Agent) (point : Point) (k : Kernel) : Kernel → Point → Prop
  | spares {k' : Kernel} {point' : Point} : (∀ q, (k'.procs q).killed = true → (k.procs q).killed = true) →
      (point'.window = true → point.window = true ∨ ∃ p, agent = .proc p ∧ (k.procs p).killed = false) →
      Killing agent point k k' point'
  | kills {target : Slot} : point = .kill target → Killing agent point k (killSection target k).data .user

theorem Killing.out {agent : Agent} {point point' : Point} {k k' : Kernel} (procs : k'.procs = k.procs)
    (outside : point'.window = false) : Killing agent point k k' point' :=
  .spares (fun q => by rw [procs]; exact id) fun inside => absurd (outside.symm.trans inside) nofun

theorem Killing.of_interrupt (cpu : Nat) (point : Point) (k : Kernel) :
    (interruptCode point).Ensures point k (Killing (.interrupt cpu) point k) := by
  cases point with
  | user => exact fun next chosen => out rfl (by cases next <;> first | rfl | cases chosen)
  | ideintrTake => exact ideintrTake_ensures (out rfl rfl) fun _ _ _ => out rfl rfl
  | consoleintrPut typed =>
    exact consoleintrPut_ensures (out rfl rfl) (fun _ _ _ => out rfl rfl) fun _ _ _ => out rfl rfl
  | _ => first | exact out rfl rfl | exact fun _ never => nomatch never

theorem Killing.of_process (p : Slot) (point : Point) (k : Kernel) :
    (procCode p point).Ensures point k (Killing (.proc p) point k) := by
  have enters {point' : Point} (alive : (k.procs p).killed = false) :
      Killing (.proc p) point k k point' := .spares (fun _ => id) fun _ => .inr ⟨p, rfl, alive⟩
  have clears {k' : Kernel} {q : Slot} {proc : Proc} {point' : Point} (procs : k'.procs = update k.procs q proc)
      (flag : proc.killed = true → (k.procs q).killed = true) (outside : point'.window = false) :
      Killing (.proc p) point k k' point' := by
    refine .spares (fun r killed => ?_) fun inside => absurd (outside.symm.trans inside) nofun
    rw [procs] at killed
    by_cases same : r = q
    · subst same
      rw [update_self] at killed
      exact flag killed
    · rw [update_of_ne same] at killed
      exact killed
  cases point with
  | user => exact fun next chosen => out rfl (by cases next <;> first | rfl | cases chosen)
  | writeFill call i =>
    exact writeFill_ensures (fun _ _ _ => out rfl rfl) (fun _ _ alive => enters alive)
      (fun _ _ => out rfl rfl) (out rfl rfl)
  | writeFull call i => exact .spares (fun _ => id) fun _ => .inl rfl
  | readTest q n => exact readTest_ensures (out rfl rfl) (fun _ _ alive => enters alive) (out rfl rfl)
  | readTake q n i => exact readTake_ensures (fun _ => out rfl rfl) (out rfl rfl)
  | consoleTest target n =>
    exact consoleTest_ensures (out rfl rfl) (fun _ alive => enters alive) fun _ => ⟨out rfl rfl, out rfl rfl⟩
  | sleepTest n ticks0 => exact sleepTest_ensures (out rfl rfl) fun _ alive => enters alive
  | gone | exit => exact ensures_goto (fun _ => out rfl rfl) fun _ => out rfl rfl
  | wait => exact waitSection_ensures (fun _ _ => clears rfl nofun rfl) (out rfl rfl) (out rfl rfl)
  | exitLocked => exact .spares (fun _ => id) nofun
  | kill target => exact .kills rfl
  | fork => exact forkSection_ensures (fun _ _ => clears rfl id rfl) (out rfl rfl)
  | _ => first
      | exact out rfl rfl
      | exact fun _ never => nomatch never
      | exact storage_ensures rfl nofun fun _ _ procs _ _ _ storage =>
        out procs (Point.window_of_storage storage)

/-- Who is in the window has not been killed, unless it has been woken since. -/
structure Unkilled (s : System) : Prop where
  scheduled : s.Scheduled
  full : ∀ p call i, s.point (.proc p) = .writeFull call i → s.phase (.proc p) = .ready
  alive : ∀ p, (s.point (.proc p)).window = true → s.phase (.proc p) ≠ .awake → (s.data.procs p).killed = false

/-- A kill does not fall into the window of its target. -/
def KillsOutside (s : System) (agent : Agent) : Prop :=
  ∀ target, s.point agent = .kill target → s.phase (.proc target) = .ready → (s.point (.proc target)).window = false

section Step

variable {s next : System} {agent : Agent}

theorem Unkilled.notAwake {p : Slot} (unkilled : Unkilled s) (step : Step code s (.proc p) next)
    (before : (s.point (.proc p)).window = true) (after : (next.point (.proc p)).window = true) :
    s.phase (.proc p) ≠ .awake := by
  intro awake
  cases step with
  | acquire phase | release phase | access phase | choose phase | goes phase | dozes phase
  | swap phase | part phase | sleep phase => exact absurd (phase.symm.trans awake) nofun
  | relock _ is =>
    dsimp only at after
    rw [update_self] at after
    generalize s.point (.proc p) = point at is before
    cases point <;> first | (cases before; done) | (cases is <;> cases after)
  | retry _ is =>
    cases at_ : s.point (.proc p) with
    | writeFull call i => exact absurd ((unkilled.full p call i at_).symm.trans awake) nofun
    | _ =>
      rw [at_] at is before
      first | (cases before; done) | cases is

theorem kill_section {target : Slot} (at_ : s.point agent = .kill target)
    (step : Step code s agent next) : next.data = s.data ∨
      s.table = none ∧ next.phase = s.woken code (killSection target s.data).wakes := by
  have is := congrArg (code agent) at_
  cases step with
  | acquire | release | choose | swap | part | sleep | relock | retry => exact .inl rfl
  | access _ instr =>
    rw [is] at instr
    cases agent <;> cases instr
  | goes _ instr free goesOn =>
    rw [is] at instr
    cases agent <;> cases instr
    exact .inr ⟨free, rfl⟩
  | dozes _ instr _ stops =>
    rw [is] at instr
    cases agent <;> cases instr
    cases stops

theorem Unkilled.full_step {p : Slot} {call : Write} {i : Nat} (unkilled : Unkilled s)
    (step : Step code s (.proc p) next) (full : next.point (.proc p) = .writeFull call i) :
    next.phase (.proc p) = .ready := by
  cases step with
  | acquire ready | release ready | access ready | choose ready => exact ready
  | goes ready => exact woken_ready code _ ready
  | relock | retry => exact update_self ..
  | dozes ready is _ stops =>
    rw [full] at is
    cases is
    cases stops
  | swap ready is =>
    rw [full] at is
    cases is
  | part phase | sleep phase => exact absurd ((unkilled.full p call i full).symm.trans phase) nofun

theorem Unkilled.step (unkilled : Unkilled s) (outside : KillsOutside s agent)
    (step : Step code s agent next) : Unkilled next := by
  have ensures : (code agent (s.point agent)).Ensures (s.point agent) s.data
      (Killing agent (s.point agent) s.data) := by
    cases agent with
    | proc p => exact Killing.of_process p _ _
    | interrupt cpu => exact Killing.of_interrupt cpu _ _
  obtain ⟨point, points, does⟩ := step.ensured (.spares (fun _ => id) fun inside => .inl inside) ensures
  have beside := step.beside
  have here : next.point agent = point := by rw [points, update_self]
  refine ⟨unkilled.scheduled.step step, fun p call i full => ?_, fun p inside calm => ?_⟩
  · by_cases mine : Agent.proc p = agent
    · subst mine
      exact unkilled.full_step step full
    · rw [beside.point _ mine] at full
      have ready := unkilled.full p call i full
      rcases beside.phase _ mine with same | ⟨asleep, _⟩
      · exact same.trans ready
      · exact absurd (ready.symm.trans asleep) nofun
  · generalize after : next.data = k' at does
    by_cases mine : Agent.proc p = agent
    · subst mine
      rw [here] at inside
      cases does with
      | spares flags enters =>
        have before : (s.data.procs p).killed = false := by
          rcases enters inside with was | ⟨q, same, alive⟩
          · exact unkilled.alive p was (unkilled.notAwake step was (here ▸ inside))
          · exact Agent.proc.inj same ▸ alive
        exact Bool.eq_false_iff.mpr fun flag => Bool.false_ne_true (before.symm.trans (flags p flag))
      | kills => cases inside
    · rw [beside.point _ mine] at inside
      have before : s.phase (.proc p) ≠ .awake := fun awake => by
        rcases beside.phase _ mine with same | ⟨asleep, _⟩
        · exact calm (same.trans awake)
        · exact absurd (asleep.symm.trans awake) nofun
      have alive := unkilled.alive p inside before
      cases does with
      | spares flags _ =>
        exact Bool.eq_false_iff.mpr fun flag => Bool.false_ne_true (alive.symm.trans (flags p flag))
      | @kills target at_ =>
        by_cases same : p = target
        · subst same
          rcases kill_section at_ step with unchanged | ⟨free, phases⟩
          · rw [← after, unchanged]
            exact alive
          · exfalso
            cases phase : s.phase (.proc p) with
            | ready => exact absurd ((outside p at_ phase).symm.trans inside) nofun
            | swapping =>
              exact absurd (free.symm.trans ((unkilled.scheduled _).mpr (.inl phase))) nofun
            | parting =>
              exact absurd (free.symm.trans ((unkilled.scheduled _).mpr (.inr phase))) nofun
            | awake => exact before phase
            | asleep =>
              refine calm ?_
              rw [phases]
              refine if_pos ⟨phase, ?_⟩
              generalize s.point (.proc p) = point at inside
              cases point <;> first | (cases inside; done) | exact decide_eq_true rfl
        · exact (congrArg Proc.killed (update_of_ne same ..)).trans alive

end Step

theorem unkilled_of_run {s : System} (run : Run code KillsOutside boot s) : Unkilled s := by
  induction run with
  | start =>
    refine ⟨fun p => ⟨nofun, nofun⟩, fun p call i full => rfl, fun p inside => ?_⟩
    unfold boot at inside
    dsimp only at inside
    split at inside <;> cases inside
  | step _ outside step ih => exact ih.step outside step

/-- When no kill falls between a test of `killed` and the sleep that follows, no
process sleeps in `pipewrite`, `piperead`, `consoleread` or `sys_sleep` with
`killed` set. -/
theorem no_killed_sleeper {s : System} (run : Run code KillsOutside boot s) {p : Slot}
    (asleep : s.phase (.proc p) = .asleep) (at_ : (s.point (.proc p)).window = true) :
    (s.data.procs p).killed = false :=
  (unkilled_of_run run).alive p at_ (asleep ▸ nofun)

section Race

variable {Meets : System → Agent → Prop} (free : ∀ s agent, (s.point agent).isKill = false → Meets s agent)

include free

theorem Run.goesOn {s next : System} {agent : Agent} (run : Run code Meets boot s)
    (notKill : (s.point agent).isKill = false) (step : Step code s agent next) : Run code Meets boot next :=
  .step run (free s agent notKill) step

theorem child_reads : ∃ s : System, Run code Meets boot s ∧ s.point (.proc initproc) = .user ∧
    s.phase (.proc initproc) = .ready ∧ s.point (.proc 1) = .readSleep 0 1 ∧
    s.phase (.proc 1) = .ready ∧ s.table = none ∧ (s.data.procs 1).killed = false := by
  have asks := Run.goesOn free .start rfl (@Step.choose _ _ _ _ _ _ _ code boot (.proc initproc) _ .fork rfl rfl rfl)
  have forks := Run.goesOn free asks rfl (.goes (p := .proc initproc) rfl rfl rfl rfl)
  have starts := Run.goesOn free forks rfl (.access (p := .proc 1) rfl rfl)
  have calls := Run.goesOn free starts rfl (@Step.choose _ _ _ _ _ _ _ code _ (.proc 1) _ (.readEnter 0 1) rfl rfl rfl)
  have enters := Run.goesOn free calls rfl (.acquire (p := .proc 1) rfl rfl rfl)
  have tests := Run.goesOn free enters rfl (.access (p := .proc 1) rfl rfl)
  exact ⟨_, tests, rfl, rfl, rfl, rfl, rfl, rfl⟩

theorem child_sleeps {s : System} (run : Run code Meets boot s)
    (at_ : s.point (.proc 1) = .readSleep 0 1) (ready : s.phase (.proc 1) = .ready)
    (unlocked : s.table = none) : ∃ next : System, Run code Meets boot next ∧
      next.point (.proc 1) = .readSleep 0 1 ∧ next.phase (.proc 1) = .asleep ∧ next.data = s.data := by
  have is : code (.proc 1) (s.point (.proc 1)) = .sleep (.nread 0) (.pipe 0) (.readTest 0 1) := by
    rw [at_]
    rfl
  have notKill : (s.point (.proc 1)).isKill = false := by
    rw [at_]
    rfl
  have swaps := Run.goesOn free run notKill (.swap ready is unlocked)
  have parts := Run.goesOn free swaps notKill (.part rfl is)
  have sleeps := Run.goesOn free parts notKill (.sleep rfl)
  exact ⟨_, sleeps, at_, rfl, rfl⟩

end Race

theorem no_killed_sleeper_child : ∃ s : System, Run code KillsOutside boot s ∧
    s.phase (.proc 1) = .asleep ∧ s.point (.proc 1) = .readSleep 0 1 ∧
    (s.data.procs 1).killed = false := by
  have free (s : System) (agent : Agent) (notKill : (s.point agent).isKill = false) :
      KillsOutside s agent := fun target is => by
    rw [is] at notKill
    cases notKill
  obtain ⟨s, run, _, _, at_, ready, unlocked, _⟩ := child_reads free
  obtain ⟨next, sleeps, there, asleep, _⟩ := child_sleeps free run at_ ready unlocked
  exact ⟨next, sleeps, asleep, there, no_killed_sleeper sleeps asleep (there ▸ rfl)⟩

/-- `initproc` kills its child between the test in `piperead` and the sleep. -/
theorem kill_lost_before_sleep : ∃ s : System, Run code (fun _ _ => True) boot s ∧
    s.phase (.proc 1) = .asleep ∧ s.point (.proc 1) = .readSleep 0 1 ∧
    (s.data.procs 1).killed = true := by
  have free (s : System) (agent : Agent) (_ : (s.point agent).isKill = false) : True := trivial
  obtain ⟨s, run, outside, atHome, at_, ready, unlocked, _⟩ := child_reads free
  have calls : Run code (fun _ _ => True) boot _ := .step run trivial
    (@Step.choose _ _ _ _ _ _ _ code s (.proc initproc)
      (fun next => next.isCall = true) (.kill 1) atHome (by rw [outside]; rfl) rfl)
  have kills : Run code (fun _ _ => True) boot _ := .step calls trivial
    (.goes (p := .proc initproc) atHome rfl unlocked rfl)
  obtain ⟨next, sleeps, there, asleep, data⟩ := child_sleeps free kills at_ (woken_ready code _ ready) unlocked
  refine ⟨next, sleeps, asleep, there, ?_⟩
  rw [data]
  rfl

end Xv6Dedup.Sleeping
