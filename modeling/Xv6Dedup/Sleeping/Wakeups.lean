import Xv6Dedup.Sleeping.Discipline

/-!
# No lost wakeup

In every run in which nobody gives up writing to a full pipe while a reader
sleeps, no process sleeps while the lock is free and what it waits for has come.
A `pipewrite` that is killed after it has filled the pipe returns without a call
on `nread`: the reader that slept on the empty pipe sleeps on.
-/

set_option autoImplicit false

namespace Xv6Dedup.Sleeping

open Function Monitor

structure Enters (p : Slot) (point : Point) (k k' : Kernel) (point' : Point) : Prop where
  starts : point = .gone → point' ≠ .gone → (k.procs p).life = .alive
  exits : point' = .exitLocked → p ≠ initproc
  locks : ∀ i, point'.locking = some i → 0 < (k'.inodes i).refs p ∨
    point.locking = some i ∧ (k'.inodes i).refs p = (k.inodes i).refs p
  full : ∀ call i, point' = .writeFull call i → (k'.pipes call.pipe).full ∧ (k'.pipes call.pipe).readopen = true

inductive Living (agent : Agent) (point : Point) (k : Kernel) : Kernel → Point → Prop
  | plain {k' : Kernel} {point' : Point} :
      (∀ q, (k'.procs q).life = (k.procs q).life ∧ (k'.procs q).parent = (k.procs q).parent) →
      (∀ i q, agent ≠ .proc q → (k'.inodes i).refs q = (k.inodes i).refs q) →
      (∀ q, point.held = some (.pipe q) ∨ k'.pipes q = k.pipes q) →
      (∀ p, agent = .proc p → point' = point ∧ k' = k ∨ Enters p point k k' point') →
      Living agent point k k' point'
  | reap {q : Slot} : point ≠ .gone → (k.procs q).life = .zombie → Living agent point k (k.setProc q {}) .user
  | exits {p : Slot} : agent = .proc p → point = .exitLocked →
      Living agent point k { k with procs := exitProcs p k.procs } .gone
  | fork {p np : Slot} : agent = .proc p → point = .fork → (k.procs np).life = .unused →
      Living agent point k (forkRun p np k) .user

theorem Living.of_interrupt (cpu : Nat) (point : Point) (k : Kernel) :
    (interruptCode point).Ensures point k (Living (.interrupt cpu) point k) := by
  have out {k' : Kernel} {point' : Point} (procs : k'.procs = k.procs)
      (inodes : k'.inodes = k.inodes) (pipes : k'.pipes = k.pipes) :
      Living (.interrupt cpu) point k k' point' := by
    refine .plain (fun q => ?_) (fun i q _ => ?_) (fun q => .inr ?_) nofun
    · rw [procs]
      exact ⟨rfl, rfl⟩
    · rw [inodes]
    · rw [pipes]
  cases point with
  | user => exact fun _ _ => out rfl rfl rfl
  | ideintrTake => exact ideintrTake_ensures (out rfl rfl rfl) fun _ _ _ => out rfl rfl rfl
  | consoleintrPut typed =>
    exact consoleintrPut_ensures (out rfl rfl rfl) (fun _ _ _ => out rfl rfl rfl) fun _ _ _ => out rfl rfl rfl
  | _ => first | exact out rfl rfl rfl | exact fun _ never => nomatch never

def Point.tame : Point → Bool
  | .exitLocked | .writeFull _ _ | .ilockEnter _ | .ilockTest _ | .ilockSleep _ => false
  | _ => true

theorem Enters.tame {p : Slot} {point point' : Point} {k k' : Kernel} (here : point ≠ .gone)
    (tame : point'.tame = true) : Enters p point k k' point' := by
  refine ⟨fun gone => absurd gone here, fun is => ?_, fun i is => ?_, fun call i is => ?_⟩
  · rw [is] at tame
    cases tame
  · cases point' <;> first | cases is; done | cases tame
  · rw [is] at tame
    cases tame

theorem Living.of_process (p : Slot) (point : Point) (k : Kernel) :
    (procCode p point).Ensures point k (Living (.proc p) point k) := by
  -- processes and references stay as they are
  have enters {k' : Kernel} {point' : Point} (procs : k'.procs = k.procs)
      (inodes : k'.inodes = k.inodes) (pipes : ∀ q, point.held = some (.pipe q) ∨ k'.pipes q = k.pipes q)
      (mine : Enters p point k k' point') : Living (.proc p) point k k' point' := by
    refine .plain (fun q => ?_) (fun i q _ => ?_) pipes fun r is => .inr (Agent.proc.inj is ▸ mine)
    · rw [procs]
      exact ⟨rfl, rfl⟩
    · rw [inodes]
  by_cases here : point = .gone
  · subst here
    refine ensures_goto (fun alive => enters rfl rfl (fun _ => .inr rfl) ⟨fun _ _ => alive, ?_, ?_, ?_⟩) fun _ =>
      enters rfl rfl (fun _ => .inr rfl) ⟨fun _ away => absurd rfl away, ?_, ?_, ?_⟩
    all_goals intros; contradiction
  have goes {point' : Point} (tame : point'.tame = true) :
      Living (.proc p) point k k point' := enters rfl rfl (fun _ => .inr rfl) (.tame here tame)
  have sets {k' : Kernel} {point' : Point} (procs : k'.procs = k.procs)
      (inodes : k'.inodes = k.inodes) (pipes : k'.pipes = k.pipes)
      (tame : point'.tame = true) : Living (.proc p) point k k' point' :=
    enters procs inodes (fun _ => .inr (by rw [pipes])) (.tame here tame)
  have piped {q : Nat} {pipe : Pipe} {point' : Point} (held : point.held = some (.pipe q)) (tame : point'.tame = true) :
      Living (.proc p) point k (k.setPipe q pipe) point' := by
    refine enters rfl rfl (fun q' => ?_) (.tame here tame)
    by_cases same : q' = q
    · exact .inl (same ▸ held)
    · exact .inr (update_of_ne same ..)
  -- an inode changes: the others keep their references
  have inodes {i : Nat} {inode : Inode} {point' : Point} (refs : ∀ q, q ≠ p → inode.refs q = (k.inodes i).refs q)
      (mine : Enters p point k (k.setInode i inode) point') :
      Living (.proc p) point k (k.setInode i inode) point' := by
    refine .plain (fun _ => ⟨rfl, rfl⟩) (fun j q other => ?_) (fun _ => .inr rfl)
      fun r is => .inr (Agent.proc.inj is ▸ mine)
    by_cases same : j = i
    · subst same
      simpa [Kernel.setInode] using refs q fun is => other (congrArg _ is.symm)
    · simp [Kernel.setInode, same]
  have refs (i : Nat) (n : Nat) (q : Slot) (other : q ≠ p) :
      update (k.inodes i).refs p n q = (k.inodes i).refs q := update_of_ne other ..
  have same (i : Nat) (q : Slot) (_ : q ≠ p) : (k.inodes i).refs q = (k.inodes i).refs q := rfl
  cases point with
  | user => exact fun next chosen => goes (by cases next <;> first | rfl | cases chosen)
  | gone => exact absurd rfl here
  | exit =>
    exact ensures_goto (fun _ => goes rfl) fun notInit => enters rfl rfl (fun _ => .inr rfl)
      ⟨fun is => absurd is here, fun _ => notInit, by rintro _ ⟨⟩, by rintro _ _ ⟨⟩⟩
  | exitLocked => exact .exits rfl rfl
  | wait =>
    exact waitSection_ensures (fun q zombie => .reap here zombie.2) (goes rfl) (goes rfl)
  | kill target =>
    refine .plain (fun q => ?_) (fun _ _ _ => rfl) (fun _ => .inr rfl) fun _ _ => .inr (.tame here rfl)
    by_cases same : q = target <;> simp [killSection, Kernel.setProc, same]
  | fork => exact forkSection_ensures (fun _ => .fork rfl rfl) (goes rfl)
  | ilockCheck i =>
    exact ensures_goto (fun has => enters rfl rfl (fun _ => .inr rfl)
      ⟨fun is => absurd is here, by rintro ⟨⟩, fun j is => .inl (Option.some.inj is ▸ has), by rintro _ _ ⟨⟩⟩) fun _ => goes rfl
  | ilockEnter i | ilockSleep i =>
    exact enters rfl rfl (fun _ => .inr rfl)
      ⟨fun is => absurd is here, by rintro ⟨⟩, fun j is => .inr ⟨is, rfl⟩, by rintro _ _ ⟨⟩⟩
  | ilockTest i =>
    exact ensures_ite (fun _ => enters rfl rfl (fun _ => .inr rfl)
      ⟨fun is => absurd is here, by rintro ⟨⟩, fun j is => .inr ⟨is, rfl⟩, by rintro _ _ ⟨⟩⟩) fun _ => inodes (same i) (.tame here rfl)
  | igetTake i | forget i | iputDrop i => exact inodes (refs i _) (.tame here rfl)
  | iunlockClear i | iputClear i => exact inodes (same i) (.tame here rfl)
  | iputTest i frees =>
    exact ensures_ite (fun _ => ensures_ite (fun _ => goes rfl) fun _ =>
      inodes (same i) (.tame here rfl)) fun _ => goes rfl
  | iunlockCheck i | brelseCheck b | iderwCheck b | iderwTest b =>
    exact ensures_goto (fun _ => goes rfl) fun _ => goes rfl
  | beginTest => exact ensures_ite (fun _ => goes rfl) fun _ => sets rfl rfl rfl rfl
  | bgetSearch sector =>
    exact bgetSearch_ensures (fun _ _ => goes rfl) (fun _ _ => sets rfl rfl rfl rfl)
      (fun _ _ => sets rfl rfl rfl rfl) (goes rfl)
  | writeFill call i =>
    refine writeFill_ensures (fun _ _ _ => goes rfl) (fun full isOpen _ => ?_) (fun _ _ => piped rfl rfl) (goes rfl)
    exact enters rfl rfl (fun _ => .inr rfl) ⟨fun is => absurd is here, by rintro ⟨⟩, by rintro _ ⟨⟩, fun call' j is => by
      cases is
      exact ⟨full, isOpen⟩⟩
  | readTest q n => exact readTest_ensures (goes rfl) (fun _ _ _ => goes rfl) (goes rfl)
  | readTake q n i => exact readTake_ensures (fun _ => piped rfl rfl) (goes rfl)
  | closeSet q writable => exact piped rfl rfl
  | consoleTest target n =>
    exact consoleTest_ensures (goes rfl) (fun _ _ => goes rfl) fun _ => ⟨sets rfl rfl rfl rfl, sets rfl rfl rfl rfl⟩
  | sleepTest n ticks0 => exact sleepTest_ensures (goes rfl) fun _ _ => goes rfl
  | _ => first | exact sets rfl rfl rfl rfl | exact fun _ never => never.elim

section Step

variable {s next : System} {agent : Agent}

theorem Living.of_step (step : Step code s agent next) : ∃ point,
    next.point = update s.point agent point ∧ Living agent (s.point agent) s.data next.data point := by
  refine step.ensured (.plain (fun _ => ⟨rfl, rfl⟩) (fun _ _ _ => rfl) (fun _ => .inr rfl)
    fun _ _ => .inl ⟨rfl, rfl⟩) ?_
  cases agent with
  | proc p => exact Living.of_process p _ _
  | interrupt cpu => exact Living.of_interrupt cpu _ _

theorem pipe_kept {p : Slot} {call : Write} {i : Nat} (sound : Sound code discipline s)
    (step : Step code s agent next) (other : Agent.proc p ≠ agent) (at_ : s.point (.proc p) = .writeFull call i)
    (pipes : (s.point agent).held = some (.pipe call.pipe) ∨ next.data.pipes call.pipe = s.data.pipes call.pipe) :
    next.data.pipes call.pipe = s.data.pipes call.pipe := by
  rcases pipes with held | same
  · rcases step.changes with same | ready
    · rw [same]
    · exfalso
      have heldHere : discipline.held (s.point (.proc p)) = some (.pipe call.pipe) := by
        rw [at_]
        rfl
      have readyHere : s.phase (.proc p) = .ready := by
        by_contra notReady
        rcases sound.shape _ notReady with restless | ⟨none, _⟩
        · rw [at_] at restless
          exact restless fun chan lock following is => by cases is
        · exact absurd (none.symm.trans heldHere) nofun
      have mine := (sound.owner _ _).mpr ((lockOf_ready readyHere).trans heldHere)
      have theirs := (sound.owner _ _).mpr ((lockOf_ready ready : s.lockOf discipline agent = _).trans held)
      exact other (Option.some.inj (mine.symm.trans theirs))
  · exact same

theorem Steady.quiet (steady : Steady s) (beside : Beside s next agent)
    (idle : next.point agent = .user ∨ next.point agent = .gone) (pipes : next.data.pipes = s.data.pipes)
    (refs : ∀ p i, (s.data.procs p).life = .alive → (next.data.inodes i).refs p = (s.data.inodes i).refs p)
    (alive : ∀ p, next.point (.proc p) ≠ .gone → (next.data.procs p).life = .alive)
    (init : (next.data.procs initproc).parent = none ∧ (next.data.procs initproc).life = .alive)
    (parents : ∀ p, (next.data.procs p).parent ≠ some p) : Steady next := by
  have before {p : Slot} {point : Point} (at_ : next.point (.proc p) = point)
      (notUser : point ≠ .user) (notGone : point ≠ .gone) : s.point (.proc p) = point := by
    by_cases mine : Agent.proc p = agent
    · rw [mine] at at_
      rcases idle with is | is
      · exact absurd (at_.symm.trans is) notUser
      · exact absurd (at_.symm.trans is) notGone
    · exact (beside.point _ mine).symm.trans at_
  refine ⟨alive, init, fun p at_ => steady.exits p (before at_ nofun nofun), parents,
    fun p i locks => ?_, fun p call i at_ => ?_⟩
  · have same := before (p := p) rfl (fun is => by rw [is] at locks; cases locks)
      fun is => by rw [is] at locks; cases locks
    rw [← same] at locks
    have lives := steady.alive p fun is => by rw [is] at locks; cases locks
    exact (refs p i lives).symm ▸ steady.refs p i locks
  · rw [pipes]
    exact steady.full p call i (before at_ nofun nofun)

theorem Steady.step (steady : Steady s) (sound : Sound code discipline s)
    (step : Step code s agent next) : Steady next := by
  obtain ⟨point, points, does⟩ := Living.of_step step
  have beside := step.beside
  have here : next.point agent = point := by rw [points, update_self]
  have kept := fun p call i other at_ => @pipe_kept _ _ _ p call i sound step other at_
  generalize after : next.data = k' at does
  rw [after] at kept
  cases does with
  | plain procs refs pipes mine =>
    -- a process stays where it is, or comes to a point by a step of its own
    have goes (p : Slot) : next.point (.proc p) = s.point (.proc p) ∧
        (∀ i, (k'.inodes i).refs p = (s.data.inodes i).refs p) ∧
        (∀ call i, s.point (.proc p) = .writeFull call i → k'.pipes call.pipe = s.data.pipes call.pipe) ∨
        Enters p (s.point (.proc p)) s.data k' (next.point (.proc p)) := by
      by_cases is : agent = .proc p
      · subst is
        rw [here]
        exact (mine p rfl).imp (fun stays => ⟨stays.1, by simp [stays.2], by simp [stays.2]⟩) id
      · exact .inl ⟨beside.point _ (Ne.symm is), fun i => refs i p is,
          fun call i at_ => kept p call i (Ne.symm is) at_ (pipes _)⟩
    refine ⟨fun p away => ?_, ?_, fun p at_ => ?_, fun p => ?_, fun p i locks => ?_, fun p call i at_ => ?_⟩
    · rw [after, (procs p).1]
      rcases goes p with ⟨same, _⟩ | enters
      · exact steady.alive p (same ▸ away)
      · by_cases gone : s.point (.proc p) = .gone
        · exact enters.starts gone away
        · exact steady.alive p gone
    · rw [after, (procs initproc).1, (procs initproc).2]
      exact steady.init
    · rcases goes p with ⟨same, _⟩ | enters
      · exact steady.exits p (same.symm.trans at_)
      · exact enters.exits at_
    · rw [after, (procs p).2]
      exact steady.parents p
    · rw [after]
      rcases goes p with ⟨same, has, _⟩ | enters
      · exact (has i).symm ▸ steady.refs p i (same ▸ locks)
      · rcases enters.locks i locks with now | ⟨before, has⟩
        · exact now
        · exact has.symm ▸ steady.refs p i before
    · rw [after]
      rcases goes p with ⟨same, _, pipe⟩ | enters
      · rw [pipe call i (same.symm.trans at_)]
        exact steady.full p call i (same.symm.trans at_)
      · exact enters.full call i at_
  | @reap q away zombie =>
    have other {p : Slot} (alive : (s.data.procs p).life = .alive) : p ≠ q := by
      rintro rfl
      cases alive.symm.trans zombie
    have same {p : Slot} (alive : (s.data.procs p).life = .alive) :
        (s.data.setProc q {}).procs p = s.data.procs p := update_of_ne (other alive) ..
    refine steady.quiet beside (.inl here) (by rw [after]; rfl) (fun _ _ _ => by rw [after]; rfl)
      (fun p goes => ?_) ?_ fun p => ?_
    · have alive : (s.data.procs p).life = .alive := by
        by_cases mine : Agent.proc p = agent
        · exact steady.alive p (mine ▸ away)
        · exact steady.alive p (beside.point _ mine ▸ goes)
      rw [after, same alive]
      exact alive
    · rw [after, same steady.init.2]
      exact steady.init
    · rw [after]
      by_cases is : p = q
      · simp [Kernel.setProc, is]
      · simpa [Kernel.setProc, is] using steady.parents p
  | @exits p is at_ =>
    subst is
    refine steady.quiet beside (.inr here) (by rw [after]) (fun _ _ _ => by rw [after])
      (fun r goes => ?_) ?_ fun r => ?_
    · have other : Agent.proc r ≠ .proc p := fun is => goes (is ▸ here)
      have notMe : r ≠ p := fun is => other (congrArg _ is)
      rw [after]
      exact (if_neg notMe).trans (steady.alive r (beside.point _ other ▸ goes))
    · rw [after]
      have notInit := steady.exits p at_
      simp [exitProcs, steady.init.1, steady.init.2, notInit.symm]
    · rw [after]
      dsimp only [exitProcs]
      split
      · rintro is
        rename_i child
        cases is
        cases steady.init.1.symm.trans child
      · exact steady.parents r
  | @fork p np is at_ unused =>
    subst is
    have other {r : Slot} (alive : (s.data.procs r).life = .alive) : r ≠ np := by
      rintro rfl
      cases alive.symm.trans unused
    have lives : (s.data.procs p).life = .alive := steady.alive p (by rw [at_]; rintro ⟨⟩)
    refine steady.quiet beside (.inl here) (by rw [after]; rfl) (fun r i alive => ?_) (fun r goes => ?_) ?_ fun r => ?_
    · rw [after]
      exact update_of_ne (other alive) ..
    · rw [after]
      by_cases isNew : r = np
      · simp [forkRun, Kernel.setProc, isNew]
      · have alive : (s.data.procs r).life = .alive := by
          by_cases mine : r = p
          · exact mine ▸ lives
          · exact steady.alive r (beside.point _ (fun is => mine (Agent.proc.inj is)) ▸ goes)
        simpa [forkRun, Kernel.setProc, isNew] using alive
    · rw [after]
      simpa [forkRun, Kernel.setProc, other steady.init.2] using steady.init
    · rw [after]
      by_cases isNew : r = np
      · subst isNew
        simpa [forkRun, Kernel.setProc] using other lives
      · simpa [forkRun, Kernel.setProc, isNew] using steady.parents r

end Step

theorem sound_boot : Sound code discipline boot where
  owner p lock := ⟨nofun, fun held => by
    rw [lockOf_ready rfl] at held
    cases p with
    | proc p =>
      dsimp only [boot] at held
      split at held <;> cases held
    | interrupt cpu => cases held⟩
  table p := ⟨nofun, nofun⟩
  shape p := (absurd rfl ·)
  tested p restless := by
    refine absurd (fun chan lock following is => ?_) restless
    cases p with
    | proc p =>
      dsimp only [boot] at is
      split at is <;> cases is
    | interrupt cpu => cases is
  debts q chan lock sleeps := by
    obtain ⟨phase | phase, _⟩ := sleeps <;> cases phase
  settled q effect chan is := nofun

theorem steady_boot : Steady boot := by
  have away {p : Slot} {point : Point} (at_ : boot.point (.proc p) = point) : point = .user ∨ point = .gone := by
    dsimp only [boot] at at_
    split at at_
    · exact .inl at_.symm
    · exact .inr at_.symm
  refine ⟨fun p there => ?_, ⟨rfl, rfl⟩, fun p at_ => ?_, fun p => ?_, fun p i locks => ?_, fun p call i at_ => ?_⟩
  · by_cases is : p = initproc
    · subst is
      rfl
    · exact absurd (if_neg is) there
  · rcases away at_ with is | is <;> cases is
  · dsimp only [boot]
    split <;> nofun
  · rcases away (p := p) rfl with is | is <;> rw [is] at locks <;> cases locks
  · rcases away at_ with is | is <;> cases is

theorem sound_of_run {s : System} (run : Run code ReadersAwake boot s) : Sound code discipline s ∧ Steady s := by
  induction run with
  | start => exact ⟨sound_boot, steady_boot⟩
  | step _ readers step ih =>
    exact ⟨ih.1.step obeys ⟨ih.2, readers⟩ step, ih.2.step ih.1 step⟩

/-- Nobody sleeps while the guarding lock is free and what they wait for has come. -/
structure NoLostWakeup (s : System) : Prop where
  wait : ∀ p, s.phase (.proc p) = .asleep → s.point (.proc p) = .wait → s.table = none →
    ∀ q, ¬ IsZombieChild s.data.procs p q
  log : ∀ p, s.phase (.proc p) = .asleep → s.point (.proc p) = .beginSleep →
    s.owner .log = none → s.data.logBusy = true
  inode : ∀ p i, s.phase (.proc p) = .asleep → s.point (.proc p) = .ilockSleep i →
    s.owner .icache = none → (s.data.inodes i).busy = true
  cache : ∀ p sector b, s.phase (.proc p) = .asleep → s.point (.proc p) = .bgetSleep sector b →
    s.owner .bcache = none → (s.data.bufs b).busy = true
  disk : ∀ p b, s.phase (.proc p) = .asleep → s.point (.proc p) = .iderwSleep b →
    s.owner .ide = none → ¬ ((s.data.bufs b).valid = true ∧ (s.data.bufs b).dirty = false)
  read : ∀ p q n, s.phase (.proc p) = .asleep → s.point (.proc p) = .readSleep q n →
    s.owner (.pipe q) = none → (s.data.pipes q).empty ∧ (s.data.pipes q).writeopen = true
  write : ∀ p call i, s.phase (.proc p) = .asleep → s.point (.proc p) = .writeSleep call i →
    s.owner (.pipe call.pipe) = none →
    (s.data.pipes call.pipe).full ∧ (s.data.pipes call.pipe).readopen = true

theorem Sound.idle {s : System} {p : Slot} {c : Cond} {lock : Lock} {point : Point}
    (sound : Sound code discipline s) (asleep : s.phase (.proc p) = .asleep)
    (at_ : s.point (.proc p) = point) (waits : awaited (.proc p) point = some c)
    (is : ∃ chan following, code (.proc p) point = .sleep chan lock following)
    (free : s.owner lock = none) : ¬ c.holds s.data := fun holds => by
  subst at_
  obtain ⟨chan, following, is⟩ := is
  exact sound.no_lost_wakeup asleep is free ⟨c, waits, holds⟩

/-- In every run in which nobody gives up writing to a full pipe while a process
sleeps in `piperead` on it, no wakeup is lost. -/
theorem no_lost_wakeup_of_readers_awake {s : System} (run : Run code ReadersAwake boot s) : NoLostWakeup s where
  wait p asleep at_ _ q zombie := by
    have is : code (.proc p) (s.point (.proc p)) = .atomic (waitSection p) (.proc p) := by
      rw [at_]
      rfl
    exact (sound_of_run run).1.settled _ _ _ is asleep ⟨.child p, by rw [at_]; rfl, q, zombie⟩
  log p asleep at_ free :=
    eq_true_of_ne_false (Sound.idle (sound_of_run run).1 asleep at_ rfl ⟨_, _, rfl⟩ free)
  inode p i asleep at_ free :=
    eq_true_of_ne_false (Sound.idle (sound_of_run run).1 asleep at_ rfl ⟨_, _, rfl⟩ free)
  cache p sector b asleep at_ free :=
    eq_true_of_ne_false (Sound.idle (sound_of_run run).1 asleep at_ rfl ⟨_, _, rfl⟩ free)
  disk p b asleep at_ free := Sound.idle (sound_of_run run).1 asleep at_ rfl ⟨_, _, rfl⟩ free
  read p q n asleep at_ free := by
    have idle := Sound.idle (sound_of_run run).1 asleep at_ rfl ⟨_, _, rfl⟩ free
    exact ⟨not_not.mp fun some => idle (.inl some), eq_true_of_ne_false fun closed => idle (.inr closed)⟩
  write p call i asleep at_ free := by
    have idle := Sound.idle (sound_of_run run).1 asleep at_ rfl ⟨_, _, rfl⟩ free
    exact ⟨not_not.mp fun room => idle (.inl room), eq_true_of_ne_false fun closed => idle (.inr closed)⟩

section Race

variable {Meets : System → Agent → Prop} {s : System}

theorem reader_sleeps (allows : ∀ s agent, (∀ call i, s.point agent ≠ .writeFill call i) → Meets s agent)
    (run : Run code Meets boot s) (outside : s.point (.proc initproc) = .user)
    (ready : s.phase (.proc initproc) = .ready) (unlocked : s.table = none)
    (free : s.owner (.pipe 0) = none) (empty : (s.data.pipes 0).empty)
    (isOpen : (s.data.pipes 0).writeopen = true) (alive : (s.data.procs initproc).killed = false) :
    Run code Meets boot { s with
      point := update s.point (.proc initproc) (.readSleep 0 1)
      phase := update s.phase (.proc initproc) .asleep } := by
  have tests : readTest initproc 0 1 s.data = (s.data, .readSleep 0 1) := by
    unfold readTest
    rw [if_pos ⟨empty, isOpen⟩, if_neg (by rw [alive]; nofun)]
  have go {s next : System} (run : Run code Meets boot s)
      (other : ∀ call i, s.point (.proc initproc) ≠ .writeFill call i)
      (step : Step code s (.proc initproc) next) : Run code Meets boot next :=
    .step run (allows _ _ other) step
  have calls := go run (fun _ _ => outside ▸ nofun) (@Step.choose _ _ _ _ _ _ _ code s
    (.proc initproc) (fun next => next.isCall = true) (.readEnter 0 1) ready
    (by rw [outside]; rfl) rfl)
  have enters := go calls nofun (.acquire ready rfl free)
  have finds := go enters nofun (.access ready rfl)
  rw [tests] at finds
  have swaps := go finds nofun (.swap ready rfl unlocked)
  have parts := go swaps nofun (.part rfl rfl)
  have sleeps := go parts nofun (.sleep rfl)
  have given : update s.owner (.pipe 0) none = s.owner := by
    rw [← free, update_eq_self]
  simpa [update_idem, unlocked, given] using sleeps

theorem writer_stores {call : Write} (here : call.pipe = 0) (long : call.n = 513) (n i : Nat)
    (bound : i + n ≤ PIPESIZE) (run : Run code (fun _ _ => True) boot s)
    (at_ : s.point (.proc 1) = .writeFill call i) (ready : s.phase (.proc 1) = .ready)
    (nread : (s.data.pipes 0).nread = 0) (nwrite : (s.data.pipes 0).nwrite = BitVec.ofNat 32 i) :
    ∃ k : Kernel, k.procs = s.data.procs ∧ (k.pipes 0).nread = 0 ∧
      (k.pipes 0).nwrite = BitVec.ofNat 32 (i + n) ∧ Run code (fun _ _ => True) boot { s with
        data := k, point := update s.point (.proc 1) (.writeFill call (i + n)) } := by
  induction n generalizing s i with
  | zero =>
    refine ⟨s.data, rfl, nread, nwrite, ?_⟩
    rwa [Nat.add_zero, ← at_, update_eq_self]
  | succ n ih =>
    have room : ¬ (s.data.pipes 0).full := by
      unfold Pipe.full
      rw [nread, nwrite]
      intro full
      have same := congrArg BitVec.toNat full
      simp [PIPESIZE] at same bound
      omega
    have stores : writeFill 1 call i s.data = _ := (if_pos (by rw [long]; simp [PIPESIZE] at bound; omega)).trans
      (if_neg (here ▸ room))
    have fills : Run code (fun _ _ => True) boot _ := .step run trivial
      (.access (p := .proc 1) ready (by rw [at_]; rfl))
    rw [stores] at fills
    obtain ⟨k, procs, reads, writes, goes⟩ := ih (i + 1) (by omega) fills
      (update_self (Agent.proc 1) _ s.point) ready (by simpa [Kernel.setPipe, here, Pipe.store] using nread)
      (by
        simp only [Kernel.setPipe, here, Pipe.store, update_self, nwrite]
        exact (BitVec.ofNat_add ..).symm)
    refine ⟨k, procs, reads, writes.trans (by rw [Nat.add_right_comm, Nat.add_assoc]), ?_⟩
    simpa [update_idem, Nat.add_right_comm, Nat.add_assoc] using goes

end Race

theorem no_lost_wakeup_of_readers_awake_init : ∃ s : System, Run code ReadersAwake boot s ∧
    s.phase (.proc initproc) = .asleep ∧ s.point (.proc initproc) = .readSleep 0 1 ∧
    NoLostWakeup s := by
  have allows (s : System) (agent : Agent) (other : ∀ call i, s.point agent ≠ .writeFill call i) :
      ReadersAwake s agent := fun p call i _ at_ => absurd at_ (other call i)
  have sleeps := reader_sleeps allows .start rfl rfl rfl rfl rfl rfl rfl
  exact ⟨_, sleeps, rfl, rfl, no_lost_wakeup_of_readers_awake sleeps⟩

/-- A killed writer fills the pipe, gives up and returns; the reader sleeps on. -/
theorem reader_sleeps_on_full_pipe : ∃ s : System, Run code (fun _ _ => True) boot s ∧
    s.phase (.proc initproc) = .asleep ∧ s.point (.proc initproc) = .readSleep 0 1 ∧
    s.owner (.pipe 0) = none ∧ (s.data.pipes 0).nread = 0 ∧ (s.data.pipes 0).nwrite = 512 := by
  have go {s next : System} {agent : Agent} (run : Run code (fun _ _ => True) boot s)
      (step : Step code s agent next) : Run code (fun _ _ => True) boot next :=
    .step run trivial step
  have asks := go .start (@Step.choose _ _ _ _ _ _ _ code boot (.proc initproc) _ .fork rfl rfl rfl)
  have forks := go asks (.goes (p := .proc initproc) rfl rfl rfl rfl)
  have starts := go forks (.access (p := .proc 1) rfl rfl)
  have calls := go starts (@Step.choose _ _ _ _ _ _ _ code _ (.proc 1) _
    (.writeEnter ⟨0, fun _ => 0, 513⟩) rfl rfl rfl)
  have aims := go calls (@Step.choose _ _ _ _ _ _ _ code _ (.proc initproc) _ (.kill 1) rfl rfl rfl)
  have kills := go aims (.goes (p := .proc initproc) rfl rfl rfl rfl)
  have sleeps := reader_sleeps (fun _ _ _ => trivial) kills rfl rfl rfl rfl rfl rfl rfl
  have enters := go sleeps (.acquire (p := .proc 1) rfl rfl rfl)
  have begins := go enters (.access (p := .proc 1) rfl rfl)
  obtain ⟨k, procs, nread, nwrite, fills⟩ := writer_stores rfl rfl 512 0 (by decide) begins rfl rfl rfl rfl
  have full : (k.pipes 0).full := by
    unfold Pipe.full
    rw [nread, nwrite]
    rfl
  have killed : (k.procs 1).killed = true := by
    rw [procs]
    rfl
  have gives : writeFill 1 ⟨0, fun _ => 0, 513⟩ 512 k = (k, .pipeLeave 0) :=
    (if_pos (by decide)).trans ((if_pos full).trans (if_pos (.inr killed)))
  have gaveUp := go fills (.access (p := .proc 1) rfl rfl)
  dsimp only at gaveUp
  rw [gives] at gaveUp
  have leaves := go gaveUp (.release (p := .proc 1) rfl rfl)
  exact ⟨_, leaves, rfl, rfl, rfl, nread, nwrite⟩

end Xv6Dedup.Sleeping
