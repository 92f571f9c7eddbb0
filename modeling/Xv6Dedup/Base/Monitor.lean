import Mathlib.Logic.Relation
import Mathlib.Tactic.Common

/-!
# Sleeping and waking under locks

Threads share data under spin locks. A thread that has to wait for a condition
gives up its lock and sleeps on a channel: it takes the lock of the scheduler,
releases its own lock and only then sleeps, and it takes its own lock again when
it is awake. A section under the scheduler's lock alone may change data and wake
threads at once.

A discipline says which lock a thread holds at each point, what a thread that
sleeps waits for, and on which channels a thread still has to call before it
releases its lock. Under a discipline no thread sleeps while the lock is free and
what it waits for has come.
-/

set_option autoImplicit false

namespace Xv6Dedup.Monitor

open Function

variable {Thread Lock Chan Data Point : Type}

/-- The end of a section under the scheduler's lock: the thread goes on, or it
sleeps and does the section again. -/
structure Section (Thread Chan Data Point : Type) where
  data : Data
  wakes : Thread → Chan → Bool
  next : Option Point

inductive Instr (Thread Lock Chan Data Point : Type) where
  | acquire (lock : Lock) (next : Point)
  | release (lock : Lock) (next : Point)
  | access (effect : Data → Data × Point)
  | choose (allowed : Point → Prop)
  | atomic (effect : Data → Section Thread Chan Data Point) (chan : Chan)
  | sleep (chan : Chan) (lock : Lock) (next : Point)

def Instr.wakeup [DecidableEq Chan] (chan : Chan) (next : Point) : Instr Thread Lock Chan Data Point :=
  .atomic (fun data => { data := data, wakes := fun _ other => other = chan, next := some next }) chan

def Instr.channel : Instr Thread Lock Chan Data Point → Option Chan
  | .atomic _ chan | .sleep chan _ _ => some chan
  | _ => none

inductive Phase where
  | ready
  /-- In `sleep`, with both locks. -/
  | swapping
  /-- In `sleep`, with the scheduler's lock only. -/
  | parting
  | asleep
  | awake
  deriving DecidableEq, Repr

structure State (Thread Lock Data Point : Type) where
  data : Data
  owner : Lock → Option Thread
  /-- The thread that holds the scheduler's lock between sections. -/
  table : Option Thread
  point : Thread → Point
  phase : Thread → Phase

abbrev Code (Thread Lock Chan Data Point : Type) : Type :=
  Thread → Point → Instr Thread Lock Chan Data Point

section Steps

variable [DecidableEq Thread] [DecidableEq Lock]

/-- The phases after a wakeup. -/
def State.woken (code : Code Thread Lock Chan Data Point) (s : State Thread Lock Data Point)
    (wakes : Thread → Chan → Bool) : Thread → Phase := fun q =>
  if s.phase q = .asleep ∧ (code q (s.point q)).channel.any (wakes q) then .awake else s.phase q

inductive Step (code : Code Thread Lock Chan Data Point) (s : State Thread Lock Data Point)
    (p : Thread) : State Thread Lock Data Point → Prop
  | acquire {lock : Lock} {next : Point} : s.phase p = .ready →
      code p (s.point p) = .acquire lock next → s.owner lock = none →
      Step code s p { s with
        owner := update s.owner lock (some p), point := update s.point p next }
  | release {lock : Lock} {next : Point} : s.phase p = .ready → code p (s.point p) = .release lock next →
      Step code s p { s with owner := update s.owner lock none, point := update s.point p next }
  | access {effect : Data → Data × Point} : s.phase p = .ready → code p (s.point p) = .access effect →
      Step code s p { s with
        data := (effect s.data).1, point := update s.point p (effect s.data).2 }
  | choose {allowed : Point → Prop} {next : Point} : s.phase p = .ready →
      code p (s.point p) = .choose allowed → allowed next →
      Step code s p { s with point := update s.point p next }
  | goes {effect : Data → Section Thread Chan Data Point} {chan : Chan} {next : Point} :
      s.phase p = .ready → code p (s.point p) = .atomic effect chan → s.table = none →
      (effect s.data).next = some next →
      Step code s p { s with
        data := (effect s.data).data, phase := s.woken code (effect s.data).wakes,
        point := update s.point p next }
  | dozes {effect : Data → Section Thread Chan Data Point} {chan : Chan} :
      s.phase p = .ready → code p (s.point p) = .atomic effect chan → s.table = none →
      (effect s.data).next = none →
      Step code s p { s with
        data := (effect s.data).data,
        phase := update (s.woken code (effect s.data).wakes) p .asleep }
  | swap {chan : Chan} {lock : Lock} {next : Point} : s.phase p = .ready →
      code p (s.point p) = .sleep chan lock next → s.table = none →
      Step code s p { s with table := some p, phase := update s.phase p .swapping }
  | part {chan : Chan} {lock : Lock} {next : Point} : s.phase p = .swapping →
      code p (s.point p) = .sleep chan lock next →
      Step code s p { s with
        owner := update s.owner lock none, phase := update s.phase p .parting }
  | sleep : s.phase p = .parting → Step code s p { s with table := none, phase := update s.phase p .asleep }
  | relock {chan : Chan} {lock : Lock} {next : Point} : s.phase p = .awake →
      code p (s.point p) = .sleep chan lock next → s.owner lock = none →
      Step code s p { s with
        owner := update s.owner lock (some p), phase := update s.phase p .ready,
        point := update s.point p next }
  | retry {effect : Data → Section Thread Chan Data Point} {chan : Chan} :
      s.phase p = .awake → code p (s.point p) = .atomic effect chan →
      Step code s p { s with phase := update s.phase p .ready }

end Steps

/-- Whatever a thread at a point does next, what it makes of the data and the point
it gets to satisfy a relation. -/
def Instr.Ensures (point : Point) (data : Data) (relation : Data → Point → Prop) :
    Instr Thread Lock Chan Data Point → Prop
  | .acquire _ next | .release _ next | .sleep _ _ next => relation data next
  | .access effect => relation (effect data).1 (effect data).2
  | .choose allowed => ∀ next, allowed next → relation data next
  | .atomic effect _ => relation (effect data).data ((effect data).next.getD point)

theorem Step.ensured [DecidableEq Thread] [DecidableEq Lock]
    {code : Code Thread Lock Chan Data Point} {s next : State Thread Lock Data Point} {p : Thread}
    {relation : Data → Point → Prop} (step : Step code s p next) (stays : relation s.data (s.point p))
    (ensures : (code p (s.point p)).Ensures (s.point p) s.data relation) :
    ∃ point, next.point = update s.point p point ∧ relation next.data point := by
  have still : s.point = update s.point p (s.point p) := (update_eq_self ..).symm
  cases step with
  | acquire ready is free | release ready is | access ready is | relock awake is free =>
    rw [is] at ensures
    exact ⟨_, rfl, ensures⟩
  | choose ready is chosen =>
    rw [is] at ensures
    exact ⟨_, rfl, ensures _ chosen⟩
  | goes ready is free goesOn =>
    rw [is] at ensures
    dsimp only [Instr.Ensures] at ensures
    rw [goesOn] at ensures
    exact ⟨_, rfl, ensures⟩
  | dozes ready is free stops =>
    rw [is] at ensures
    dsimp only [Instr.Ensures] at ensures
    rw [stops] at ensures
    exact ⟨_, still, ensures⟩
  | swap | part | sleep | retry => exact ⟨_, still, stays⟩

/-! ## Disciplines -/

structure Spec (Thread Lock Chan Data Point : Type) where
  /-- The lock held at a point, besides the scheduler's. -/
  held : Point → Option Lock
  /-- What a thread that sleeps at a point waits for. -/
  waits : Thread → Point → Data → Prop
  /-- The channels to call on before the lock is released. -/
  owes : Point → Chan → Prop

/-- The thread has given its lock up to sleep on the channel. -/
def State.Sleeps (code : Code Thread Lock Chan Data Point) (s : State Thread Lock Data Point)
    (q : Thread) (chan : Chan) (lock : Lock) : Prop :=
  (s.phase q = .parting ∨ s.phase q = .asleep) ∧ ∃ next, code q (s.point q) = .sleep chan lock next

/-- The thread does not sleep next. -/
def Calm (code : Code Thread Lock Chan Data Point) (p : Thread) (point : Point) : Prop :=
  ∀ chan lock next, code p point ≠ .sleep chan lock next

/-- What a change of the data by a thread has to keep: a condition guarded by a
lock comes true under the lock and is then owed a call, and threads that wait for
another condition are woken at once. -/
structure Keeps (code : Code Thread Lock Chan Data Point) (spec : Spec Thread Lock Chan Data Point)
    (s : State Thread Lock Data Point) (p : Thread) (after : Data) (wakes : Thread → Chan → Bool)
    (held : Option Lock) (owes : Chan → Prop) : Prop where
  locked : ∀ q, q ≠ p → ∀ chan lock next, code q (s.point q) = .sleep chan lock next →
    spec.waits q (s.point q) after → spec.waits q (s.point q) s.data ∨ held = some lock ∧ owes chan
  unlocked : ∀ q, q ≠ p → ∀ effect chan, code q (s.point q) = .atomic effect chan →
    spec.waits q (s.point q) after → spec.waits q (s.point q) s.data ∨ wakes q chan = true

/-- What a thread has to keep when it changes the data, wakes threads and gets to a
point. -/
structure Advance (code : Code Thread Lock Chan Data Point)
    (spec : Spec Thread Lock Chan Data Point) (s : State Thread Lock Data Point) (p : Thread)
    (wakes : Thread → Chan → Bool) (data : Data) (point : Point) : Prop where
  held : spec.held point = spec.held (s.point p)
  keeps : Keeps code spec s p data wakes (spec.held (s.point p)) (spec.owes point)
  untested : ¬ Calm code p point → ¬ spec.waits p point data
  owed : ∀ chan, spec.owes (s.point p) chan → spec.owes point chan ∨ (∀ q, wakes q chan = true) ∨
    ∀ q lock, spec.held (s.point p) = some lock → ¬ s.Sleeps code q chan lock

/-- The code obeys the discipline in the states it is allowed to run in. -/
structure Obeys (code : Code Thread Lock Chan Data Point)
    (spec : Spec Thread Lock Chan Data Point)
    (Allowed : State Thread Lock Data Point → Thread → Prop) : Prop where
  acquire : ∀ p point lock next, code p point = .acquire lock next →
    spec.held point = none ∧ spec.held next = some lock ∧ Calm code p next
  release : ∀ p point lock next, code p point = .release lock next →
    spec.held point = some lock ∧ spec.held next = none ∧ Calm code p next ∧ ∀ chan, ¬ spec.owes point chan
  choose : ∀ p point allowed next, code p point = .choose allowed → allowed next →
    spec.held point = none ∧ spec.held next = none ∧ Calm code p next
  sleep : ∀ p point chan lock next, code p point = .sleep chan lock next →
    spec.held point = some lock ∧ spec.held next = some lock ∧ Calm code p next ∧ ∀ other, ¬ spec.owes point other
  access : ∀ s p effect, Allowed s p → code p (s.point p) = .access effect →
    Advance code spec s p (fun _ _ => false) (effect s.data).1 (effect s.data).2
  goes : ∀ s p effect chan next, Allowed s p → code p (s.point p) = .atomic effect chan →
    (effect s.data).next = some next →
    Advance code spec s p (effect s.data).wakes (effect s.data).data next
  dozes : ∀ s p effect chan, Allowed s p → code p (s.point p) = .atomic effect chan → (effect s.data).next = none →
    spec.held (s.point p) = none ∧
    Keeps code spec s p (effect s.data).data (effect s.data).wakes none (fun _ => False) ∧
    ¬ spec.waits p (s.point p) (effect s.data).data

/-- The scheduler's lock is with the thread that is on its way to sleep. -/
def State.Scheduled (s : State Thread Lock Data Point) : Prop :=
  ∀ p, s.table = some p ↔ s.phase p = .swapping ∨ s.phase p = .parting

/-- The lock of a thread, besides the scheduler's. -/
def State.lockOf (spec : Spec Thread Lock Chan Data Point) (s : State Thread Lock Data Point)
    (p : Thread) : Option Lock :=
  match s.phase p with
  | .ready | .swapping => spec.held (s.point p)
  | .parting | .asleep | .awake => none

/-- The thread has the lock and will call on the channel before it releases it. -/
def State.Pays (spec : Spec Thread Lock Chan Data Point) (s : State Thread Lock Data Point)
    (h : Thread) (chan : Chan) (lock : Lock) : Prop :=
  s.lockOf spec h = some lock ∧ s.phase h = .ready ∧ spec.owes (s.point h) chan

/-- The invariant of a disciplined program. -/
structure Sound (code : Code Thread Lock Chan Data Point)
    (spec : Spec Thread Lock Chan Data Point) (s : State Thread Lock Data Point) : Prop where
  owner : ∀ p lock, s.owner lock = some p ↔ s.lockOf spec p = some lock
  table : s.Scheduled
  shape : ∀ p, s.phase p ≠ .ready → ¬ Calm code p (s.point p) ∨
    spec.held (s.point p) = none ∧ (s.phase p = .asleep ∨ s.phase p = .awake)
  tested : ∀ p, ¬ Calm code p (s.point p) → s.phase p = .ready ∨ s.phase p = .swapping →
    ¬ spec.waits p (s.point p) s.data
  debts : ∀ q chan lock, s.Sleeps code q chan lock → spec.waits q (s.point q) s.data → ∃ h, s.Pays spec h chan lock
  settled : ∀ q effect chan, code q (s.point q) = .atomic effect chan → s.phase q = .asleep →
    ¬ spec.waits q (s.point q) s.data

/-! ## The invariant along a step -/

section Invariant

variable {code : Code Thread Lock Chan Data Point} {spec : Spec Thread Lock Chan Data Point}
  {s next : State Thread Lock Data Point} {p : Thread}

theorem lockOf_ready (ready : s.phase p = .ready) : s.lockOf spec p = spec.held (s.point p) := by
  unfold State.lockOf
  rw [ready]

theorem Step.changes [DecidableEq Thread] [DecidableEq Lock] (step : Step code s p next) :
    next.data = s.data ∨ s.phase p = .ready := by
  cases step with
  | acquire ready | release ready | access ready | choose ready | goes ready | dozes ready =>
    exact .inr ready
  | _ => exact .inl rfl

variable {q : Thread} {chan : Chan} {lock : Lock}

/-- While the lock is free, no thread sleeps that waits for something that holds. -/
theorem Sound.no_lost_wakeup (sound : Sound code spec s) {following : Point} (asleep : s.phase q = .asleep)
    (is : code q (s.point q) = .sleep chan lock following) (free : s.owner lock = none) :
    ¬ spec.waits q (s.point q) s.data := by
  intro waits
  obtain ⟨h, has, _⟩ := sound.debts q chan lock ⟨.inr asleep, following, is⟩ waits
  exact absurd (free.symm.trans ((sound.owner h lock).mpr has)) nofun

theorem woken_cases (wakes : Thread → Chan → Bool) (q : Thread) :
    s.woken code wakes q = s.phase q ∨ s.phase q = .asleep ∧ s.woken code wakes q = .awake := by
  unfold State.woken
  split
  · rename_i called
    exact .inr ⟨called.1, rfl⟩
  · exact .inl rfl

theorem woken_ready (code : Code Thread Lock Chan Data Point) (wakes : Thread → Chan → Bool)
    (ready : s.phase p = .ready) : s.woken code wakes p = .ready := by
  unfold State.woken
  rw [ready]
  exact if_neg nofun

theorem woken_asleep {wakes : Thread → Chan → Bool} (asleep : s.woken code wakes q = .asleep)
    (channel : (code q (s.point q)).channel = some chan) : wakes q chan = false := by
  unfold State.woken at asleep
  split at asleep
  · cases asleep
  · rename_i notCalled
    cases called : wakes q chan with
    | false => rfl
    | true =>
      refine absurd ⟨asleep, ?_⟩ notCalled
      rw [channel]
      exact called

/-- The scheduler's lock moves with the thread that falls asleep. -/
theorem State.Scheduled.step [DecidableEq Thread] [DecidableEq Lock] (scheduled : s.Scheduled)
    (step : Step code s p next) : next.Scheduled := by
  have woken (wakes : Thread → Chan → Bool) (q : Thread) :
      s.woken code wakes q = .swapping ∨ s.woken code wakes q = .parting ↔
        s.phase q = .swapping ∨ s.phase q = .parting := by
    rcases (woken_cases wakes q : s.woken code wakes q = _ ∨ _) with same | ⟨was, now⟩
    · rw [same]
    · simp [was, now]
  have own {table : Option Thread} {new : Phase} (mine : table = some p ↔ new = .swapping ∨ new = .parting)
      (others : ∀ q, q ≠ p → (table = some q ↔ s.table = some q)) (q : Thread) :
      table = some q ↔ update s.phase p new q = .swapping ∨ update s.phase p new q = .parting := by
    by_cases same : q = p
    · rw [same, update_self]
      exact mine
    · rw [update_of_ne same, others q same]
      exact scheduled q
  intro q
  cases step with
  | acquire | release | access | choose => exact scheduled q
  | goes => exact (scheduled q).trans (woken _ q).symm
  | dozes ready is free stops =>
    by_cases same : q = p
    · subst same
      simp [free]
    · dsimp only
      rw [update_of_ne same, woken]
      exact scheduled q
  | swap ready is free => exact own (by simp) (fun q other => by simp [free, other.symm]) q
  | part swapping is => exact own (by simpa using (scheduled p).mpr (.inl swapping)) (fun _ _ => .rfl) q
  | sleep parting =>
    have holder := (scheduled p).mpr (.inr parting)
    exact own (by simp) (fun q other => by simp [holder, other.symm]) q
  | relock awake | retry awake => exact own (by simp [scheduled p, awake]) (fun _ _ => .rfl) q

/-- The threads other than the one that acts stay where they are; some are woken. -/
structure Beside (s next : State Thread Lock Data Point) (p : Thread) : Prop where
  point : ∀ q, q ≠ p → next.point q = s.point q
  phase : ∀ q, q ≠ p → next.phase q = s.phase q ∨ s.phase q = .asleep ∧ next.phase q = .awake

theorem Step.beside [DecidableEq Thread] [DecidableEq Lock] (step : Step code s p next) : Beside s next p := by
  have moves {α : Type} (f : Thread → α) (a : α) (q : Thread) (other : q ≠ p) :
      update f p a q = f q := update_of_ne other ..
  cases step with
  | acquire | release | access | choose => exact ⟨moves _ _, fun _ _ => .inl rfl⟩
  | goes => exact ⟨moves _ _, fun q _ => woken_cases _ q⟩
  | dozes => exact ⟨fun _ _ => rfl, fun q other => by
    dsimp only
    rw [moves _ _ q other]
    exact woken_cases _ q⟩
  | swap | part | sleep | retry => exact ⟨fun _ _ => rfl, fun q other => .inl (moves _ _ q other)⟩
  | relock => exact ⟨moves _ _, fun q other => .inl (moves _ _ q other)⟩

namespace Beside

theorem before {phase : Phase} (beside : Beside s next p) (other : q ≠ p) (now : next.phase q = phase)
    (notWoken : phase ≠ .awake) : s.phase q = phase := by
  rcases beside.phase q other with same | ⟨_, awake⟩
  · exact same.symm.trans now
  · exact absurd (now.symm.trans awake) notWoken

theorem lockOf (beside : Beside s next p) (other : q ≠ p) : next.lockOf spec q = s.lockOf spec q := by
  unfold State.lockOf
  rw [beside.point q other]
  rcases beside.phase q other with same | ⟨asleep, awake⟩
  · rw [same]
  · rw [asleep, awake]

theorem sleeps (beside : Beside s next p) (other : q ≠ p) (sleeps : next.Sleeps code q chan lock) :
    s.Sleeps code q chan lock := by
  obtain ⟨phase, following, is⟩ := sleeps
  refine ⟨?_, following, beside.point q other ▸ is⟩
  exact phase.imp (beside.before other · nofun) (beside.before other · nofun)

theorem pays {h : Thread} (beside : Beside s next p) (other : h ≠ p) (pays : s.Pays spec h chan lock) :
    next.Pays spec h chan lock := by
  obtain ⟨has, ready, owes⟩ := pays
  refine ⟨(beside.lockOf other).trans has, ?_, (beside.point h other).symm ▸ owes⟩
  rcases beside.phase h other with same | ⟨asleep, _⟩
  · exact same.trans ready
  · exact absurd (ready.symm.trans asleep) nofun

end Beside

namespace Sound

section

variable {Allowed : State Thread Lock Data Point → Thread → Prop} (obeys : Obeys code spec Allowed)
include obeys

omit obeys in
theorem unmoved (sound : Sound code spec s) (beside : Beside s next p)
    (same : next.lockOf spec p = s.lockOf spec p) (owners : next.owner = s.owner)
    (q : Thread) (lock : Lock) : next.owner lock = some q ↔ next.lockOf spec q = some lock := by
  by_cases here : q = p
  · rw [owners, here, same]
    exact sound.owner p lock
  · rw [owners, beside.lockOf here]
    exact sound.owner q lock

/-- One thread acts: what remains to be shown is about this thread, about what it
does to the conditions of the others, and about the calls it owes. -/
theorem update (sound : Sound code spec s) (beside : Beside s next p) (table : next.Scheduled)
    (owner : ∀ q lock, next.owner lock = some q ↔ next.lockOf spec q = some lock)
    (shape : next.phase p ≠ .ready → ¬ Calm code p (next.point p) ∨
      spec.held (next.point p) = none ∧ (next.phase p = .asleep ∨ next.phase p = .awake))
    (tested : ¬ Calm code p (next.point p) → next.phase p = .ready ∨ next.phase p = .swapping →
      ¬ spec.waits p (next.point p) next.data)
    (others : ∀ q, q ≠ p → ∀ chan lock following, code q (s.point q) = .sleep chan lock following →
      spec.waits q (s.point q) next.data → spec.waits q (s.point q) s.data ∨ next.Pays spec p chan lock)
    (paid : ∀ chan lock, s.Pays spec p chan lock →
      next.Pays spec p chan lock ∨ ∀ q, q ≠ p → ¬ next.Sleeps code q chan lock)
    (own : ∀ chan lock, next.Sleeps code p chan lock → spec.waits p (next.point p) next.data →
      ∃ h, h ≠ p ∧ s.Pays spec h chan lock)
    (called : ∀ q, q ≠ p → ∀ effect chan, code q (s.point q) = .atomic effect chan →
      next.phase q = .asleep → spec.waits q (s.point q) next.data → spec.waits q (s.point q) s.data)
    (settled : ∀ effect chan, code p (next.point p) = .atomic effect chan →
      next.phase p = .asleep → ¬ spec.waits p (next.point p) next.data) : Sound code spec next := by
  refine ⟨owner, table, fun q notReady => ?_, fun q restless holding waits => ?_,
    fun q chan lock sleeps waits => ?_, fun q effect chan is asleep waits => ?_⟩
  · by_cases same : q = p
    · exact same ▸ shape (same ▸ notReady)
    · rw [beside.point q same]
      rcases beside.phase q same with unchanged | ⟨asleep, awake⟩
      · rw [unchanged] at notReady ⊢
        exact sound.shape q notReady
      · exact (sound.shape q (by rw [asleep]; nofun)).imp id (And.imp id fun _ => .inr awake)
  · by_cases same : q = p
    · subst same
      exact tested restless holding waits
    · have before : s.phase q = .ready ∨ s.phase q = .swapping :=
        holding.imp (beside.before same · nofun) (beside.before same · nofun)
      rw [beside.point q same] at restless waits
      have unmet := sound.tested q restless before
      unfold Calm at restless
      push Not at restless
      obtain ⟨chan, lock, following, is⟩ := restless
      rcases others q same chan lock following is waits with was | ⟨has, _⟩
      · exact unmet was
      · -- the lock that guards the condition is with the thread that sleeps next
        have its : s.lockOf spec q = some lock := by
          unfold State.lockOf
          rcases before with isReady | isSwapping
          · rw [isReady]
            exact (obeys.sleep q _ chan lock following is).1
          · rw [isSwapping]
            exact (obeys.sleep q _ chan lock following is).1
        rw [← beside.lockOf same, ← owner, (owner p lock).mpr has] at its
        exact same (Option.some.inj its).symm
  · by_cases same : q = p
    · subst same
      obtain ⟨h, other, pays⟩ := own chan lock sleeps waits
      exact ⟨h, beside.pays other pays⟩
    · rw [beside.point q same] at waits
      obtain ⟨_, following, is⟩ := beside.sleeps same sleeps
      rcases others q same chan lock following is waits with was | pays
      · obtain ⟨h, pays⟩ := sound.debts q chan lock (beside.sleeps same sleeps) was
        by_cases mine : h = p
        · rcases paid chan lock (mine ▸ pays) with still | nobody
          · exact ⟨p, still⟩
          · exact absurd sleeps (nobody q same)
        · exact ⟨h, beside.pays mine pays⟩
      · exact ⟨p, pays⟩
  · by_cases same : q = p
    · subst same
      exact settled effect chan is asleep waits
    · rw [beside.point q same] at is waits
      exact sound.settled q effect chan is (beside.before same asleep nofun) (called q same effect chan is asleep waits)

/-- A thread moves to a point where it is ready and does not sleep next, without a
change of the data. -/
theorem moved (sound : Sound code spec s) (beside : Beside s next p)
    (table : next.Scheduled) (data : next.data = s.data) (ready : next.phase p = .ready)
    (calm : Calm code p (next.point p)) (owner : ∀ q lock, next.owner lock = some q ↔ next.lockOf spec q = some lock)
    (paid : ∀ chan lock, ¬ s.Pays spec p chan lock) : Sound code spec next := by
  have awakeNow {phase : Phase} (is : next.phase p = phase) : phase = .ready := is.symm.trans ready
  refine sound.update obeys beside table owner (absurd ready) (fun restless => absurd calm restless)
    (fun q _ _ _ _ _ waits => .inl (data ▸ waits)) (fun chan lock pays => absurd pays (paid chan lock))
    (fun chan lock sleeps => ?_) (fun q _ _ _ _ _ waits => data ▸ waits) fun _ _ _ asleep => ?_
  · obtain ⟨_, following, is⟩ := sleeps
    exact absurd is (calm chan lock following)
  · cases awakeNow asleep

theorem advanced {wakes : Thread → Chan → Bool} (sound : Sound code spec s)
    (beside : Beside s next p) (table : next.Scheduled) (ready : s.phase p = .ready)
    (still : next.phase p = .ready) (owners : next.owner = s.owner)
    (advance : Advance code spec s p wakes next.data (next.point p))
    (silent : ∀ q chan, q ≠ p → (code q (s.point q)).channel = some chan →
      next.phase q = .parting ∨ next.phase q = .asleep → wakes q chan = false) : Sound code spec next := by
  obtain ⟨held, keeps, untested, owed⟩ := advance
  have locks : next.lockOf spec p = spec.held (s.point p) := (lockOf_ready still).trans held
  have notSleeping {phase : Phase} (is : next.phase p = phase) : phase = .ready := is.symm.trans still
  refine sound.update obeys beside table (sound.unmoved beside (locks.trans (lockOf_ready ready).symm) owners)
    (absurd still) (fun restless _ => untested restless)
    (fun q other chan lock following isSleep waits => ?_) (fun chan lock pays => ?_)
    (fun chan lock sleeps => ?_) (fun q other effect chan isAtomic asleep waits => ?_)
    fun _ _ _ asleep => ?_
  · exact (keeps.locked q other chan lock following isSleep waits).imp id fun pays =>
      ⟨locks.trans pays.1, still, pays.2⟩
  · have has := (lockOf_ready ready).symm.trans pays.1
    rcases owed chan pays.2.2 with owes | everyone | nobody
    · exact .inl ⟨locks.trans has, still, owes⟩
    · refine .inr fun q other sleeps => ?_
      obtain ⟨_, following, isSleep⟩ := beside.sleeps other sleeps
      exact absurd ((everyone q).symm.trans (silent q chan other (by rw [isSleep]; rfl) sleeps.1)) nofun
    · exact .inr fun q other sleeps => nobody q lock has (beside.sleeps other sleeps)
  · rcases sleeps.1 with phase | phase <;> cases notSleeping phase
  · refine (keeps.unlocked q other effect chan isAtomic waits).resolve_right fun woken => ?_
    exact absurd (woken.symm.trans (silent q chan other (by rw [isAtomic]; rfl) (.inr asleep))) nofun
  · cases notSleeping asleep

theorem step [DecidableEq Thread] [DecidableEq Lock] (sound : Sound code spec s) (allowed : Allowed s p)
    (step : Step code s p next) : Sound code spec next := by
  have table := sound.table.step step
  have beside := step.beside
  have elsewhere (q : Thread) (other : q ≠ p) : next.lockOf spec q = s.lockOf spec q :=
    beside.lockOf other
  have unpaid {chan : Chan} {lock : Lock} (none : s.lockOf spec p = none) : ¬ s.Pays spec p chan lock :=
    fun pays => absurd (none.symm.trans pays.1) nofun
  have taken {lock : Lock} (was : s.lockOf spec p = none) (now : next.lockOf spec p = some lock)
      (free : s.owner lock = none) (owners : next.owner = Function.update s.owner lock (some p))
      (q : Thread) (l : Lock) : next.owner l = some q ↔ next.lockOf spec q = some l := by
    rw [owners]
    by_cases here : l = lock
    · rw [here, update_self]
      by_cases same : q = p
      · simp [same, now]
      · rw [elsewhere q same, ← sound.owner, free]
        exact ⟨fun is => absurd (Option.some.inj is).symm same, nofun⟩
    · rw [update_of_ne here, sound.owner]
      by_cases same : q = p
      · rw [same, was, now]
        exact ⟨nofun, fun is => absurd (Option.some.inj is).symm here⟩
      · rw [elsewhere q same]
  have given {lock : Lock} (was : s.lockOf spec p = some lock) (now : next.lockOf spec p = none)
      (owners : next.owner = Function.update s.owner lock none) (q : Thread) (l : Lock) :
      next.owner l = some q ↔ next.lockOf spec q = some l := by
    rw [owners]
    by_cases same : q = p
    · rw [same, now]
      refine ⟨fun owned => ?_, nofun⟩
      by_cases here : l = lock
      · rw [here, update_self] at owned
        cases owned
      · rw [update_of_ne here, sound.owner, was] at owned
        exact absurd (Option.some.inj owned).symm here
    · rw [elsewhere q same, ← sound.owner]
      by_cases here : l = lock
      · rw [here, update_self, (sound.owner p lock).mpr was]
        exact ⟨nofun, fun is => absurd (Option.some.inj is).symm same⟩
      · rw [update_of_ne here]
  cases step with
  | @acquire lock point ready is free =>
    obtain ⟨before, after, calm⟩ := obeys.acquire p _ lock point is
    have none : s.lockOf spec p = none := (lockOf_ready ready).trans before
    refine sound.moved obeys beside table rfl ready (by simpa using calm)
      (taken none ?_ free rfl) fun _ _ => unpaid none
    simp only [State.lockOf, ready, update_self, after]
  | @release lock point ready is =>
    obtain ⟨before, after, calm, paid⟩ := obeys.release p _ lock point is
    refine sound.moved obeys beside table rfl ready (by simpa using calm)
      (given ((lockOf_ready ready).trans before) ?_ rfl) fun chan l pays => paid chan pays.2.2
    simp only [State.lockOf, ready, update_self, after]
  | @choose options point ready is chosen =>
    obtain ⟨before, after, calm⟩ := obeys.choose p _ options point is chosen
    have none : s.lockOf spec p = none := (lockOf_ready ready).trans before
    refine sound.moved obeys beside table rfl ready (by simpa using calm) (sound.unmoved beside ?_ rfl)
      fun _ _ => unpaid none
    simp only [State.lockOf, ready, update_self, after, before]
  | @relock chan lock point awake is free =>
    obtain ⟨_, after, calm, _⟩ := obeys.sleep p _ chan lock point is
    have none : s.lockOf spec p = none := by simp only [State.lockOf, awake]
    refine sound.moved obeys beside table rfl (update_self ..) (by simpa using calm)
      (taken none ?_ free rfl) fun _ _ => unpaid none
    simp only [State.lockOf, update_self, after]
  | @retry effect chan awake is =>
    have calm : Calm code p (s.point p) := fun c l following isSleep =>
      absurd (is.symm.trans isSleep) nofun
    have none : s.lockOf spec p = none := by simp only [State.lockOf, awake]
    have held : spec.held (s.point p) = Option.none := by
      rcases sound.shape p (by rw [awake]; nofun) with restless | dozing
      · exact absurd calm restless
      · exact dozing.1
    refine sound.moved obeys beside table rfl (update_self ..) calm (sound.unmoved beside ?_ rfl) fun _ _ => unpaid none
    simp only [State.lockOf, update_self, held, awake]
  | @access effect ready is =>
    have advance := obeys.access s p effect allowed is
    rw [← update_self p (effect s.data).2 s.point] at advance
    exact sound.advanced obeys beside table ready ready rfl advance fun _ _ _ _ _ => rfl
  | @goes effect chan point ready is free goesOn =>
    have advance := obeys.goes s p effect chan point allowed is goesOn
    rw [← update_self p point s.point] at advance
    refine sound.advanced obeys beside table ready (woken_ready code _ ready) rfl advance
      fun q c other channel phase => ?_
    rcases phase with parting | asleep
    · -- nobody is on the way to sleep while the scheduler's lock is free
      have was := beside.before other parting nofun
      exact absurd (free.symm.trans ((sound.table q).mpr (.inr was))) nofun
    · exact woken_asleep asleep channel
  | @dozes effect chan ready is free stops =>
    obtain ⟨held, keeps, untested⟩ := obeys.dozes s p effect chan allowed is stops
    have now : Function.update (s.woken code (effect s.data).wakes) p .asleep p = .asleep :=
      update_self ..
    have none : s.lockOf spec p = none := (lockOf_ready ready).trans held
    have calm : Calm code p (s.point p) := fun c l following isSleep =>
      absurd (is.symm.trans isSleep) nofun
    refine sound.update obeys beside table (sound.unmoved beside ?_ rfl) (fun _ => .inr ⟨held, .inl now⟩)
      (fun restless => absurd calm restless)
      (fun q other c lock following isSleep waits => ?_)
      (fun _ _ pays => absurd pays (unpaid none)) (fun c lock sleeps => ?_)
      (fun q other e c isAtomic asleep waits => ?_) fun _ _ _ _ => untested
    · rw [none]
      simp only [State.lockOf, now]
    · exact .inl ((keeps.locked q other c lock following isSleep waits).resolve_right fun owes => owes.2)
    · obtain ⟨_, following, isSleep⟩ := sleeps
      exact absurd isSleep (calm c lock following)
    · refine (keeps.unlocked q other e c isAtomic waits).resolve_right fun woken => ?_
      dsimp only at asleep
      rw [update_of_ne other] at asleep
      have silent := woken_asleep asleep (by rw [isAtomic]; rfl)
      rw [woken] at silent
      cases silent
  | @swap chan lock point ready is free =>
    obtain ⟨held, _, _, paid⟩ := obeys.sleep p _ chan lock point is
    have now : Function.update s.phase p .swapping p = .swapping := update_self ..
    have restless : ¬ Calm code p (s.point p) := fun calm => calm chan lock point is
    refine sound.update obeys beside table (sound.unmoved beside ?_ rfl) (fun _ => .inl restless)
      (fun restless _ => sound.tested p restless (.inl ready)) (fun _ _ _ _ _ _ => .inl)
      (fun c l pays => absurd pays.2.2 (paid c)) (fun c l sleeps => ?_)
      (fun _ _ _ _ _ _ => id) fun _ _ _ asleep => absurd (now.symm.trans asleep) nofun
    · simp only [State.lockOf, now, ready]
    · rcases sleeps.1 with phase | phase <;> exact absurd (now.symm.trans phase) nofun
  | @part chan lock point swapping is =>
    have held := (obeys.sleep p _ chan lock point is).1
    have now : Function.update s.phase p .parting p = .parting := update_self ..
    have restless : ¬ Calm code p (s.point p) := fun calm => calm chan lock point is
    have has : s.lockOf spec p = some lock := by simp only [State.lockOf, swapping, held]
    refine sound.update obeys beside table (given has ?_ rfl) (fun _ => .inl restless)
      (fun _ holding => ?_) (fun _ _ _ _ _ _ => .inl)
      (fun c l pays => absurd (swapping.symm.trans pays.2.1) nofun) (fun c l _ waits => ?_)
      (fun _ _ _ _ _ _ => id) fun _ _ _ asleep => absurd (now.symm.trans asleep) nofun
    · simp only [State.lockOf, now]
    · rcases holding with phase | phase <;> exact absurd (now.symm.trans phase) nofun
    · exact absurd waits (sound.tested p restless (.inr swapping))
  | sleep parting =>
    have now : Function.update s.phase p .asleep p = .asleep := update_self ..
    have restless : ¬ Calm code p (s.point p) := by
      rcases sound.shape p (by rw [parting]; nofun) with restless | ⟨_, phase | phase⟩
      · exact restless
      · exact absurd (parting.symm.trans phase) nofun
      · exact absurd (parting.symm.trans phase) nofun
    refine sound.update obeys beside table (sound.unmoved beside ?_ rfl) (fun _ => .inl restless)
      (fun _ holding => ?_) (fun _ _ _ _ _ _ => .inl)
      (fun c l pays => absurd (parting.symm.trans pays.2.1) nofun)
      (fun c l sleeps waits => ?_) (fun _ _ _ _ _ _ => id) fun effect c isAtomic _ => ?_
    · simp only [State.lockOf, now, parting]
    · rcases holding with phase | phase <;> exact absurd (now.symm.trans phase) nofun
    · obtain ⟨h, pays⟩ := sound.debts p c l ⟨.inl parting, sleeps.2⟩ waits
      refine ⟨h, fun same => ?_, pays⟩
      rw [same] at pays
      exact absurd (parting.symm.trans pays.2.1) nofun
    · refine absurd (fun chan lock following isSleep => ?_) restless
      exact absurd (isAtomic.symm.trans isSleep) nofun

end

end Sound

/-- The states a program reaches from a state by steps that meet a condition. -/
inductive Run [DecidableEq Thread] [DecidableEq Lock] (code : Code Thread Lock Chan Data Point)
    (Meets : State Thread Lock Data Point → Thread → Prop)
    (start : State Thread Lock Data Point) : State Thread Lock Data Point → Prop
  | start : Run code Meets start start
  | step {s next : State Thread Lock Data Point} {p : Thread} : Run code Meets start s →
      Meets s p → Step code s p next → Run code Meets start next

end Invariant

end Xv6Dedup.Monitor
