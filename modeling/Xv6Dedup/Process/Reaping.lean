import Xv6Dedup.Process.Scheduling

/-!
# Children and those who wait for them

What the history of a run says about the table: which pids `fork` returned,
which processes have exited and which pids `wait` returned. The parent of a
process is its creator, or `initproc` once the creator has exited.
-/

set_option autoImplicit false

namespace Xv6Dedup.Process

open Function

def Event.forkedChild : Event → Option Pid
  | .forked _ child => some child
  | _ => none

def Event.reapedChild : Event → Option Pid
  | .reaped _ _ child => some child
  | _ => none

/-- The pids `fork` has returned. -/
def forks (events : List Event) : List Pid := events.filterMap Event.forkedChild

/-- The pids `wait` has returned. -/
def reaps (events : List Event) : List Pid := events.filterMap Event.reapedChild

def Event.subjects : Event → List Pid
  | .forked _ child => [child]
  | .exited pid => [pid]
  | .reaped _ _ child => [child]
  | .allocated | .waitFailed _ => []

def Proc.Used (proc : Proc) : Prop := proc.state ≠ .UNUSED

def Proc.Active (proc : Proc) : Prop := proc.state.settled = false

variable {proc : Proc}

theorem Proc.Active.used (active : proc.Active) : proc.Used := by
  intro unused
  unfold Proc.Active at active
  rw [unused] at active
  cases active

theorem Proc.Alive.active (alive : proc.Alive) : proc.Active := by
  unfold Proc.Active
  cases alive with
  | inl running => rw [running]; rfl
  | inr runnable => rw [runnable]; rfl

theorem Proc.Active.notZombie (active : proc.Active) : proc.state ≠ .ZOMBIE := by
  intro zombie
  unfold Proc.Active at active
  rw [zombie] at active
  cases active

theorem Proc.Active.notEmbryo (active : proc.Active) : proc.state ≠ .EMBRYO := by
  intro embryo
  unfold Proc.Active at active
  rw [embryo] at active
  cases active

theorem active_of_settled {before after : Proc}
    (same : ∀ state, state.settled = true → (after.state = state ↔ before.state = state))
    (active : before.Active) : after.Active := by
  unfold Proc.Active at active ⊢
  cases settled : after.state.settled with
  | false => rfl
  | true =>
    rw [(same after.state settled).mp rfl, settled] at active
    cases active

/-- What the books say about one slot. -/
structure Entry (events : List Event) (table : Table) (parented : Slot → Slot → Prop)
    (q : Slot) : Prop where
  below : (table.proc q).Used → (table.proc q).pid.toNat < table.nextpid.toNat
  fresh : (table.proc q).state = .EMBRYO → (table.proc q).pid ∉ forks events
  exited : (table.proc q).Used → (.exited (table.proc q).pid ∈ events ↔ (table.proc q).state = .ZOMBIE)
  unreaped : (table.proc q).Used → (table.proc q).pid ∉ reaps events
  parents : (table.proc q).Used → (table.proc q).state ≠ .EMBRYO → q ≠ initproc →
    ∃ s creator, (table.proc q).parent = some s ∧ .forked creator (table.proc q).pid ∈ events ∧
      ((table.proc s).pid = creator ∨ s = initproc ∧ .exited creator ∈ events)
  family : ∀ s, (table.proc q).parent = some s → (table.proc q).Used ∧ (table.proc s).Active
  making : (table.proc q).state = .EMBRYO → (table.proc q).parent ≠ none → ∃ p, parented p q

structure Books (events : List Event) (table : Table) (parented : Slot → Slot → Prop) : Prop where
  nextpid : table.nextpid.toNat = 2 + events.count .allocated
  distinct : ∀ p q, (table.proc p).Used → (table.proc q).Used → (table.proc p).pid = (table.proc q).pid → p = q
  past : ∀ event ∈ events, ∀ pid ∈ event.subjects, pid.toNat < table.nextpid.toNat
  forkedOnce : (forks events).Nodup
  reapedOnce : (reaps events).Nodup
  entry : ∀ q, Entry events table parented q
  parented : ∀ p np, parented p np → (table.proc np).parent = some p
  first : (table.proc initproc).Active ∧ (table.proc initproc).pid = 1

/-! ## Histories -/

theorem filterMap_snoc (child : Event → Option Pid) (events : List Event) (event : Option Event) :
    (events ++ event.toList).filterMap child = events.filterMap child ++ (event.bind child).toList := by
  rw [List.filterMap_append]
  cases event with
  | none => rfl
  | some event => cases made : child event <;> simp [made]

theorem forkedChild_subject {event : Event} {pid : Pid} (child : event.forkedChild = some pid) :
    pid ∈ event.subjects := by
  cases event <;> cases child
  exact List.mem_singleton.mpr rfl

theorem reapedChild_subject {event : Event} {pid : Pid} (child : event.reapedChild = some pid) :
    pid ∈ event.subjects := by
  cases event <;> cases child
  exact List.mem_singleton.mpr rfl

theorem nodup_snoc {pids : List Pid} {pid : Option Pid} (once : pids.Nodup)
    (new : ∀ last, pid = some last → last ∉ pids) : (pids ++ pid.toList).Nodup := by
  cases pid with
  | none => exact (List.append_nil pids).symm ▸ once
  | some last => exact List.nodup_append_comm.mp (List.nodup_cons.mpr ⟨new last rfl, once⟩)

namespace Books

variable {events : List Event} {event : Option Event} {table next : Table}
  {parented parentedNext : Slot → Slot → Prop}

theorem unnamed_iff {pid : Pid} (unnamed : ∀ named ∈ event, pid ∉ named.subjects) :
    (pid ∈ forks (events ++ event.toList) ↔ pid ∈ forks events) ∧
      (.exited pid ∈ events ++ event.toList ↔ .exited pid ∈ events) ∧
      (pid ∈ reaps (events ++ event.toList) ↔ pid ∈ reaps events) := by
  have old {named : Event} (names : pid ∈ named.subjects) : named ∈ events ++ event.toList ↔ named ∈ events := by
    rw [List.mem_append, Option.mem_toList]
    exact ⟨fun member => member.resolve_right fun new => unnamed named new names, .inl⟩
  exact ⟨List.mem_filterMap.trans ((exists_congr fun _ => and_congr_left fun is =>
      old (forkedChild_subject is)).trans List.mem_filterMap.symm),
    old (List.mem_singleton.mpr rfl),
    List.mem_filterMap.trans ((exists_congr fun _ => and_congr_left fun is =>
      old (reapedChild_subject is)).trans List.mem_filterMap.symm)⟩

theorem entry_of_unused {q : Slot} (unused : (table.proc q).state = .UNUSED)
    (orphan : (table.proc q).parent = none) : Entry events table parented q := by
  refine ⟨?_, ?_, ?_, ?_, ?_, ?_, ?_⟩
  · exact absurd unused
  · intro embryo
    exact absurd (unused.symm.trans embryo) nofun
  · exact absurd unused
  · exact absurd unused
  · exact absurd unused
  · intro s isParent
    exact absurd (orphan.symm.trans isParent) nofun
  · intro _ hasParent
    exact absurd orphan hasParent

/-- The parent of a process after a step: the one it had, or `initproc` once that
one has exited. -/
def Rehomed (events : List Event) (table next : Table) (q : Slot) : Prop :=
  (next.proc q).parent = (table.proc q).parent ∨
    ∃ p, (table.proc q).parent = some p ∧ (next.proc q).parent = some initproc ∧
      p ≠ initproc ∧ .exited (table.proc p).pid ∈ events

/-- The event of a step is about the process in a slot. -/
structure About (event : Option Event) (table : Table) (x : Slot) : Prop where
  subject : ∀ named ∈ event, ∀ pid ∈ named.subjects, (table.proc x).Used ∧ pid = (table.proc x).pid
  forked : ∀ named ∈ event, named.forkedChild ≠ none → (table.proc x).state = .EMBRYO

theorem About.none (x : Slot) : About none table x := ⟨nofun, nofun⟩

variable {x : Slot}

theorem About.some {named : Event} (child : named.forkedChild = .none)
    (subject : ∀ pid ∈ named.subjects, (table.proc x).Used ∧ pid = (table.proc x).pid) :
    About (some named) table x := by
  refine ⟨?_, ?_⟩
  · rintro _ ⟨⟩
    exact subject
  · rintro _ ⟨⟩ made
    exact absurd child made

variable {np p : Slot} (books : Books events table parented)
include books

theorem unknown {pid : Pid} (new : table.nextpid.toNat ≤ pid.toNat) :
    pid ∉ forks events ∧ .exited pid ∉ events ∧ pid ∉ reaps events := by
  have late {event : Event} (member : event ∈ events) : pid ∉ event.subjects := fun named =>
    absurd (books.past _ member pid named) (Nat.not_lt.mpr new)
  refine ⟨fun member => ?_, fun member => late member (List.mem_singleton.mpr rfl), fun member => ?_⟩
  · obtain ⟨_, member, is⟩ := List.mem_filterMap.mp member
    exact late member (forkedChild_subject is)
  · obtain ⟨_, member, is⟩ := List.mem_filterMap.mp member
    exact late member (reapedChild_subject is)

/-- A process keeps its pid. -/
theorem keeps_entry {q : Slot} (later : table.nextpid.toNat ≤ next.nextpid.toNat)
    (pid : (next.proc q).pid = (table.proc q).pid) (used : (next.proc q).Used ↔ (table.proc q).Used)
    (embryo : (next.proc q).state = .EMBRYO ↔ (table.proc q).state = .EMBRYO)
    (exited : (table.proc q).Used → (.exited (table.proc q).pid ∈ events ++ event.toList ↔
      (next.proc q).state = .ZOMBIE))
    (fresh : (table.proc q).state = .EMBRYO → (table.proc q).pid ∉ forks (events ++ event.toList))
    (unreaped : (table.proc q).Used → (table.proc q).pid ∉ reaps (events ++ event.toList))
    (parent : Rehomed (events ++ event.toList) table next q)
    (heir : ∀ s, (next.proc q).parent = some s → (table.proc s).Active →
      (next.proc s).Active ∧ (next.proc s).pid = (table.proc s).pid) (making : ∀ p, parented p q → parentedNext p q) :
    Entry (events ++ event.toList) next parentedNext q := by
  refine ⟨fun isUsed => ?_, ?_, fun isUsed => ?_, fun isUsed => ?_, ?_, ?_, ?_⟩
  · rw [pid]
    exact Nat.lt_of_lt_of_le ((books.entry q).below (used.mp isUsed)) later
  · rw [embryo, pid]
    exact fresh
  · rw [pid]
    exact exited (used.mp isUsed)
  · rw [pid]
    exact unreaped (used.mp isUsed)
  · intro isUsed notEmbryo notFirst
    rw [Ne, embryo] at notEmbryo
    obtain ⟨s, creator, isParent, made, known⟩ :=
      (books.entry q).parents (used.mp isUsed) notEmbryo notFirst
    rw [pid]
    rcases parent with same | ⟨p, was, now, notInit, ended⟩
    · have now := same.trans isParent
      have kept := (heir s now ((books.entry q).family s isParent).2).2
      exact ⟨s, creator, now, List.mem_append_left _ made, known.imp kept.trans (And.imp id (List.mem_append_left _))⟩
    · -- the parent was not `initproc`, so it was the creator
      obtain rfl := Option.some.inj (was.symm.trans isParent)
      have creates := known.resolve_right fun first => notInit first.1
      exact ⟨initproc, creator, now, List.mem_append_left _ made, .inr ⟨rfl, creates ▸ ended⟩⟩
  · intro s isParent
    rcases parent with same | ⟨p, was, now, _⟩
    · obtain ⟨isUsed, active⟩ := (books.entry q).family s (same.symm.trans isParent)
      exact ⟨used.mpr isUsed, (heir s isParent active).1⟩
    · obtain rfl := Option.some.inj (now.symm.trans isParent)
      exact ⟨used.mpr ((books.entry q).family p was).1, (heir _ now books.first.1).1⟩
  · intro isEmbryo hasParent
    have before : (table.proc q).parent ≠ none := by
      rcases parent with same | ⟨p, was, _⟩
      · rw [← same]
        exact hasParent
      · rw [was]
        nofun
    obtain ⟨p, makes⟩ := (books.entry q).making (embryo.mp isEmbryo) before
    exact ⟨p, making p makes⟩

/-- A step changes the slot `x`, and its event is about the process there. -/
theorem amended (nextpid : next.nextpid.toNat = 2 + (events ++ event.toList).count .allocated)
    (about : About event table x) (still : ∀ q ≠ x, (next.proc q).pid = (table.proc q).pid ∧
      ∀ state, state.settled = true → ((next.proc q).state = state ↔ (table.proc q).state = state))
    (parent : ∀ q ≠ x, Rehomed (events ++ event.toList) table next q)
    (own : (next.proc x).Used → (table.proc x).Used ∧ (next.proc x).pid = (table.proc x).pid ∨
      table.nextpid.toNat ≤ (next.proc x).pid.toNat)
    (heir : ∀ q, (next.proc q).parent = some x → (table.proc x).Active →
      (next.proc x).Active ∧ (next.proc x).pid = (table.proc x).pid)
    (mine : Entry (events ++ event.toList) next parentedNext x) (making : ∀ q ≠ x, ∀ p, parented p q → parentedNext p q)
    (parents : ∀ p np, parentedNext p np → (next.proc np).parent = some p)
    (first : (next.proc initproc).Active ∧ (next.proc initproc).pid = 1) :
    Books (events ++ event.toList) next parentedNext := by
  have later : table.nextpid.toNat ≤ next.nextpid.toNat := by
    rw [nextpid, books.nextpid, List.count_append]
    omega
  have used {q : Slot} (other : q ≠ x) : (next.proc q).Used ↔ (table.proc q).Used :=
    not_congr ((still q other).2 .UNUSED rfl)
  have unnamed {q : Slot} (other : q ≠ x) (isUsed : (table.proc q).Used) :=
    @unnamed_iff events event (table.proc q).pid fun named new member =>
      have ⟨usedX, same⟩ := about.subject named new _ member
      other (books.distinct q x isUsed usedX same)
  have entries (q : Slot) : Entry (events ++ event.toList) next parentedNext q := by
    by_cases other : q = x
    · exact other ▸ mine
    · obtain ⟨pid, settled⟩ := still q other
      refine books.keeps_entry later pid (used other) (settled .EMBRYO rfl) (fun isUsed => ?_)
        (fun embryo => ?_) (fun isUsed => ?_) (parent q other) (fun s isParent active => ?_)
        (making q other)
      · rw [(unnamed other isUsed).2.1, settled .ZOMBIE rfl]
        exact (books.entry q).exited isUsed
      · rw [(unnamed other fun unused => absurd (unused.symm.trans embryo) nofun).1]
        exact (books.entry q).fresh embryo
      · rw [(unnamed other isUsed).2.2]
        exact (books.entry q).unreaped isUsed
      · by_cases here : s = x
        · subst here
          exact heir q isParent active
        · exact ⟨active_of_settled (still s here).2 active, (still s here).1⟩
  have apart {q : Slot} (other : q ≠ x) (usedQ : (next.proc q).Used)
      (usedX : (next.proc x).Used) : (next.proc q).pid ≠ (next.proc x).pid := by
    intro same
    rw [(still q other).1] at same
    rcases own usedX with ⟨before, kept⟩ | new
    · exact other (books.distinct q x ((used other).mp usedQ) before (same.trans kept))
    · have below := (books.entry q).below ((used other).mp usedQ)
      rw [same] at below
      omega
  refine ⟨nextpid, fun q r usedQ usedR same => ?_, ?_, ?_, ?_, entries, parents, first⟩
  · by_cases hereQ : q = x
    · by_cases hereR : r = x
      · rw [hereQ, hereR]
      · subst hereQ
        exact absurd same.symm (apart hereR usedR usedQ)
    · by_cases hereR : r = x
      · subst hereR
        exact absurd same (apart hereQ usedQ usedR)
      · rw [(still q hereQ).1, (still r hereR).1] at same
        exact books.distinct q r ((used hereQ).mp usedQ) ((used hereR).mp usedR) same
  · intro named member pid names
    refine Nat.lt_of_lt_of_le ?_ later
    rw [List.mem_append, Option.mem_toList] at member
    cases member with
    | inl old => exact books.past named old pid names
    | inr new =>
      obtain ⟨usedX, same⟩ := about.subject named new pid names
      rw [same]
      exact (books.entry x).below usedX
  · rw [forks, filterMap_snoc]
    refine nodup_snoc books.forkedOnce fun pid new => ?_
    obtain ⟨named, is, child⟩ := Option.bind_eq_some_iff.mp new
    rw [(about.subject named is pid (forkedChild_subject child)).2]
    exact (books.entry x).fresh (about.forked named is (child ▸ nofun))
  · rw [reaps, filterMap_snoc]
    refine nodup_snoc books.reapedOnce fun pid new => ?_
    obtain ⟨named, is, child⟩ := Option.bind_eq_some_iff.mp new
    obtain ⟨usedX, same⟩ := about.subject named is pid (reapedChild_subject child)
    rw [same]
    exact (books.entry x).unreaped usedX

theorem kept (silent : ∀ named ∈ event, named.subjects = [] ∧ named ≠ .allocated)
    (pid : ∀ q, (next.proc q).pid = (table.proc q).pid) (parent : ∀ q, (next.proc q).parent = (table.proc q).parent)
    (settled : ∀ q state, state.settled = true → ((next.proc q).state = state ↔ (table.proc q).state = state))
    (nextpid : next.nextpid = table.nextpid) (same : ∀ p np, parentedNext p np ↔ parented p np) :
    Books (events ++ event.toList) next parentedNext := by
  have used (q : Slot) : (next.proc q).Used ↔ (table.proc q).Used :=
    not_congr (settled q .UNUSED rfl)
  have unnamed (q : Slot) := @unnamed_iff events event (table.proc q).pid fun named new => by
    rw [(silent named new).1]
    nofun
  have heir (s : Slot) (active : (table.proc s).Active) :
      (next.proc s).Active ∧ (next.proc s).pid = (table.proc s).pid :=
    ⟨active_of_settled (settled s) active, pid s⟩
  refine books.amended (x := initproc) ?_ ⟨fun named new => ?_, fun named new child => ?_⟩
    (fun q _ => ⟨pid q, settled q⟩) (fun q _ => .inl (parent q)) (fun isUsed => ?_)
    (fun _ _ => heir initproc) ?_ (fun q _ p => (same p q).mpr) (fun p np makes => ?_) ?_
  · rw [nextpid, books.nextpid, List.count_append]
    cases event with
    | none => rfl
    | some named => simp [(silent named rfl).2]
  · rw [(silent named new).1]
    nofun
  · have quiet := (silent named new).1
    cases named <;> first | exact absurd rfl child | cases quiet
  · exact .inl ⟨(used _).mp isUsed, pid _⟩
  · refine books.keeps_entry (nextpid ▸ Nat.le_refl _) (pid _) (used _) (settled _ .EMBRYO rfl)
      (fun isUsed => ?_) ?_ ?_ (.inl (parent _)) (fun s _ => heir s) fun p => (same p _).mpr
    · rw [(unnamed _).2.1, settled _ .ZOMBIE rfl]
      exact (books.entry _).exited isUsed
    · rw [(unnamed _).1]
      exact (books.entry _).fresh
    · rw [(unnamed _).2.2]
      exact (books.entry _).unreaped
  · rw [parent]
    exact books.parented p np ((same p np).mp makes)
  · obtain ⟨active, isOne⟩ := books.first
    exact ⟨(heir _ active).1, (pid _).trans isOne⟩

/-- A step writes one slot. -/
theorem put (procs : next.proc = update table.proc x proc)
    (nextpid : next.nextpid.toNat = 2 + (events ++ event.toList).count .allocated)
    (about : About event table x) (inactive : ¬ (table.proc x).Active)
    (own : proc.Used → (table.proc x).Used ∧ proc.pid = (table.proc x).pid ∨ table.nextpid.toNat ≤ proc.pid.toNat)
    (mine : Entry (events ++ event.toList) next parentedNext x) (making : ∀ q ≠ x, ∀ p, parented p q → parentedNext p q)
    (parents : ∀ p np, parentedNext p np → np ≠ x ∧ parented p np ∨ np = x ∧ proc.parent = some p) :
    Books (events ++ event.toList) next parentedNext := by
  have self : next.proc x = proc := by
    rw [procs, update_self]
  have other {q : Slot} (differs : q ≠ x) : next.proc q = table.proc q := by
    rw [procs, update_of_ne differs]
  have notFirst : initproc ≠ x := by
    rintro rfl
    exact inactive books.first.1
  refine books.amended nextpid about (fun q differs => ?_) (fun q differs => ?_)
    (by rw [self]; exact own) (fun _ _ active => absurd active inactive) mine making
    (fun p np makes => ?_) (by rw [other notFirst]; exact books.first)
  · rw [other differs]
    exact ⟨rfl, fun _ _ => .rfl⟩
  · rw [Rehomed, other differs]
    exact .inl rfl
  · rcases parents p np makes with ⟨differs, before⟩ | ⟨rfl, now⟩
    · rw [other differs]
      exact books.parented p np before
    · rw [self]
      exact now

theorem setPages (x : Slot) (pid : proc.pid = (table.proc x).pid)
    (parent : proc.parent = (table.proc x).parent) (state : proc.state = (table.proc x).state)
    (same : ∀ p np, parentedNext p np ↔ parented p np) :
    Books (events ++ (none : Option Event).toList) (table.set x proc) parentedNext := by
  have kept (q : Slot) : ((table.set x proc).proc q).pid = (table.proc q).pid ∧
      ((table.set x proc).proc q).parent = (table.proc q).parent ∧
      ((table.set x proc).proc q).state = (table.proc q).state := by
    by_cases here : q = x
    · rw [here, Table.set_same]
      exact ⟨pid, parent, state⟩
    · rw [Table.set_other _ _ here]
      exact ⟨rfl, rfl, rfl⟩
  refine books.kept nofun (fun q => (kept q).1) (fun q => (kept q).2.1) (fun q _ _ => ?_) rfl same
  rw [(kept q).2.2]

theorem embryo (unused : (table.proc np).state = .UNUSED) (few : events.count .allocated + 1 < 2 ^ 31)
    (same : ∀ p np, parentedNext p np ↔ parented p np) :
    Books (events ++ (some Event.allocated).toList) (table.embryo np) parentedNext := by
  have wide : (table.nextpid + 1).toNat = table.nextpid.toNat + 1 := by
    have one : (1 : Pid).toNat = 1 := rfl
    rw [BitVec.toNat_add, books.nextpid]
    omega
  have self : (table.embryo np).proc np =
      { table.proc np with state := .EMBRYO, pid := table.nextpid } := Table.set_same ..
  have orphan : (table.proc np).parent = none := by
    cases isParent : (table.proc np).parent with
    | none => rfl
    | some s => exact absurd unused ((books.entry np).family s isParent).1
  obtain ⟨notForked, notExited, notReaped⟩ := books.unknown (Nat.le_refl _)
  obtain ⟨forksSame, exitedSame, reapsSame⟩ :=
    @unnamed_iff events (some .allocated) table.nextpid (by rintro _ ⟨⟩; nofun)
  refine books.put rfl ?_ (.some rfl nofun) (fun active => active.used unused)
    (fun _ => .inr (Nat.le_refl _)) ?_ (fun q _ p => (same p q).mpr) fun p child makes => .inl ⟨?_, (same p child).mp makes⟩
  · rw [List.count_append]
    exact wide.trans (congrArg (· + 1) books.nextpid)
  · constructor <;> rw [self]
    · exact fun _ => Nat.lt_of_lt_of_eq (Nat.lt_succ_self _) wide.symm
    · exact fun _ => mt forksSame.mp notForked
    · exact fun _ => ⟨fun ended => absurd (exitedSame.mp ended) notExited, nofun⟩
    · exact fun _ => mt reapsSame.mp notReaped
    · exact fun _ notEmbryo => absurd rfl notEmbryo
    · exact fun s isParent => absurd (orphan.symm.trans isParent) nofun
    · exact fun _ hasParent => absurd orphan hasParent
  · rintro rfl
    exact absurd (orphan.symm.trans (books.parented p child ((same p child).mp makes))) nofun

/-- A slot is given back, by `fork` or to `wait`. -/
theorem vacated (inactive : ¬ (table.proc x).Active) (unused : proc.state = .UNUSED)
    (orphan : proc.parent = none) (unmade : ∀ p, ¬ parented p x)
    (count : (events ++ event.toList).count .allocated = events.count .allocated)
    (about : About event table x) (same : ∀ p np, parentedNext p np ↔ parented p np) :
    Books (events ++ event.toList) (table.set x proc) parentedNext := by
  refine books.put rfl (count ▸ books.nextpid) about inactive (absurd unused) ?_
    (fun q _ p => (same p q).mpr) fun p np makes => .inl ⟨?_, (same p np).mp makes⟩
  · refine entry_of_unused ?_ ?_
    · rw [Table.set_same, unused]
    · rw [Table.set_same, orphan]
  · rintro rfl
    exact unmade p ((same p np).mp makes)

theorem adopted (embryo : (table.proc np).state = .EMBRYO) (active : (table.proc p).Active)
    (same : ∀ q child, parentedNext q child ↔ parented q child ∨ q = p ∧ child = np) (unmade : ∀ q, ¬ parented q np) :
    Books (events ++ (none : Option Event).toList) (table.setParent np p) parentedNext := by
  have self : (table.setParent np p).proc np = { table.proc np with parent := some p } :=
    Table.set_same ..
  have apart : p ≠ np := by
    rintro rfl
    exact active.notEmbryo embryo
  refine books.put rfl ?_ (.none np) (fun active => active.notEmbryo embryo) (fun used => .inl ⟨used, rfl⟩) ?_
    (fun q _ p makes => (same p q).mpr (.inl makes)) fun q child makes => ?_
  · rw [Option.toList_none, List.append_nil]
    exact books.nextpid
  · rw [Option.toList_none, List.append_nil]
    constructor <;> rw [self]
    · exact (books.entry np).below
    · exact (books.entry np).fresh
    · exact (books.entry np).exited
    · exact (books.entry np).unreaped
    · exact fun _ notEmbryo => absurd embryo notEmbryo
    · rintro _ ⟨⟩
      rw [show (table.setParent np p).proc p = table.proc p from Table.set_other _ _ apart]
      exact ⟨fun unused => absurd (unused.symm.trans embryo) nofun, active⟩
    · exact fun _ _ => ⟨p, (same p np).mpr (.inr ⟨rfl, rfl⟩)⟩
  · rcases (same q child).mp makes with before | ⟨rfl, rfl⟩
    · refine .inl ⟨?_, before⟩
      rintro rfl
      exact unmade q before
    · exact .inr ⟨rfl, rfl⟩

theorem published (embryo : (table.proc np).state = .EMBRYO) (mine : parented p np)
    (same : ∀ q child, parentedNext q child ↔ parented q child ∧ q ≠ p)
    (only : ∀ child, parented p child → child = np) (unique : ∀ q, parented q np → q = p) :
    Books (events ++ (some (Event.forked (table.proc p).pid (table.proc np).pid)).toList)
      (table.setState np .RUNNABLE) parentedNext := by
  have used : (table.proc np).Used := fun unused => absurd (unused.symm.trans embryo) nofun
  have isParent := books.parented p np mine
  have active := ((books.entry np).family p isParent).2
  have apart : p ≠ np := by
    rintro rfl
    exact active.notEmbryo embryo
  have self : (table.setState np .RUNNABLE).proc np = { table.proc np with state := .RUNNABLE } :=
    Table.set_same ..
  have maker : (table.setState np .RUNNABLE).proc p = table.proc p := Table.set_other _ _ apart
  refine books.put rfl ?_ ⟨?_, fun _ _ _ => embryo⟩ (fun active => active.notEmbryo embryo)
    (fun _ => .inl ⟨used, rfl⟩) ?_ (fun q other r makes => (same r q).mpr ⟨makes, ?_⟩)
    fun q child makes => ?_
  · rw [List.count_append]
    exact books.nextpid
  · rintro _ ⟨⟩ pid about
    exact ⟨used, List.mem_singleton.mp about⟩
  · constructor <;> rw [self]
    · exact fun _ => (books.entry np).below used
    · nofun
    · refine fun _ => ⟨fun ended => ?_, nofun⟩
      rcases List.mem_append.mp ended with before | new
      · exact absurd (embryo.symm.trans (((books.entry np).exited used).mp before)) nofun
      · cases List.mem_singleton.mp new
    · rw [reaps, filterMap_snoc]
      exact fun _ member => (books.entry np).unreaped used ((List.append_nil (reaps events)) ▸ member)
    · refine fun _ _ _ => ⟨p, (table.proc p).pid, isParent, ?_, .inl (congrArg Proc.pid maker)⟩
      exact List.mem_append_right _ (List.mem_singleton.mpr rfl)
    · intro s isHere
      obtain rfl := Option.some.inj (isParent.symm.trans isHere)
      rw [maker]
      exact ⟨nofun, active⟩
    · nofun
  · rintro rfl
    exact other (only q makes)
  · obtain ⟨before, differs⟩ := (same q child).mp makes
    refine .inl ⟨?_, before⟩
    rintro rfl
    exact differs (unique q before)

theorem exits (running : (table.proc p).Active) (notSleeping : (table.proc p).state ≠ .SLEEPING)
    (notFirst : p ≠ initproc) (outside : ∀ np, ¬ parented p np)
    (same : ∀ q child, parentedNext q child ↔ parented q child) :
    Books (events ++ (some (Event.exited (table.proc p).pid)).toList) (exit p table) parentedNext := by
  have self := exit_self notSleeping
  have still (q : Slot) (other : q ≠ p) : ((exit p table).proc q).pid = (table.proc q).pid ∧
      ∀ state, state.settled = true → (((exit p table).proc q).state = state ↔ (table.proc q).state = state) :=
    ⟨(exit_other other).pid, (exit_other other).calm.state⟩
  have ended : .exited (table.proc p).pid ∈ events ++ (some (Event.exited (table.proc p).pid)).toList :=
    List.mem_append_right _ (List.mem_singleton.mpr rfl)
  have parent (q : Slot) : ((exit p table).proc q).parent = adoptive p (table.proc q).parent := by
    by_cases here : q = p
    · rw [here, self]
    · exact (exit_other here).parent
  have left (q : Slot) : ((exit p table).proc q).parent ≠ some p := by
    rw [parent]
    unfold adoptive
    split
    · exact fun is => notFirst (Option.some.inj is).symm
    · assumption
  have rehomed (q : Slot) : Rehomed (events ++ (some (Event.exited (table.proc p).pid)).toList)
      table (exit p table) q := by
    rw [Rehomed, parent]
    by_cases mine : (table.proc q).parent = some p
    · exact .inr ⟨p, mine, if_pos mine, notFirst, ended⟩
    · exact .inl (if_neg mine)
  refine books.amended ?_ (.some rfl fun pid named => ⟨running.used, ?_⟩) still (fun q _ => rehomed q)
    (fun _ => .inl ⟨running.used, ?_⟩) (fun q isParent => absurd isParent (left q)) ?_
    (fun q _ r => (same r q).mpr) ?_ ?_
  · rw [exit_nextpid, List.count_append]
    exact books.nextpid
  · exact List.mem_singleton.mp named
  · rw [self]
  · refine books.keeps_entry (Nat.le_of_eq (by rw [exit_nextpid])) (by rw [self]) ?_ ?_ (fun _ => ?_)
      (fun embryo => absurd embryo running.notEmbryo) (fun used => ?_) (rehomed p)
      (fun s isParent active => ?_) fun r => (same r p).mpr
    · rw [self]
      exact ⟨fun _ => running.used, fun _ => nofun⟩
    · rw [self]
      exact ⟨nofun, fun embryo => absurd embryo running.notEmbryo⟩
    · rw [self]
      exact ⟨fun _ => rfl, fun _ => ended⟩
    · rw [reaps, filterMap_snoc]
      exact fun member => (books.entry p).unreaped used ((List.append_nil (reaps events)) ▸ member)
    · have other : s ≠ p := by
        rintro rfl
        exact left _ isParent
      exact ⟨active_of_settled (still s other).2 active, (still s other).1⟩
  · intro r np makes
    have before := (same r np).mp makes
    have other : some r ≠ some p := by
      rintro ⟨⟩
      exact outside np before
    rw [parent, books.parented r np before]
    exact if_neg other
  · obtain ⟨pid, settled⟩ := still initproc notFirst.symm
    exact ⟨active_of_settled settled books.first.1, pid.trans books.first.2⟩

end Books

/-! ## Runs -/

/-- The processes that have made themselves the parent of an embryo. -/
def Machine.Parented {Cpu : Type} (m : Machine Cpu) (p np : Slot) : Prop := m.point p = .parented np

theorem Point.stage_parented {point : Point} {np : Slot} : point.stage = .parented np ↔ point = .parented np := by
  cases point <;> simp [Point.stage, Point.preempted]

theorem parented_update {Cpu : Type} {m next : Machine Cpu} {p : Slot} {old new : Point}
    (at_ : m.point p = old) (point : next.point = update m.point p new)
    (before : ∀ np, old ≠ .parented np) (after : ∀ np, new ≠ .parented np) (q np : Slot) :
    next.Parented q np ↔ m.Parented q np := by
  unfold Machine.Parented
  rw [point]
  by_cases same : q = p
  · rw [same, update_self, at_]
    exact ⟨fun is => absurd is (after np), fun is => absurd is (before np)⟩
  · rw [update_of_ne same]

section Runs

variable {Cpu : Type} {m next : Machine Cpu} {events : List Event} {event : Option Event}

abbrev Machine.Recorded (m : Machine Cpu) (events : List Event) : Prop :=
  Books events m.table m.Parented

theorem Forking.of_parented (forking : Forking m) {p np : Slot} (makes : m.Parented p np) :
    (m.point p).forking = some np ∧ (m.table.proc np).state = .EMBRYO := by
  have point : (m.point p).forking = some np := by
    rw [show m.point p = .parented np from makes]
    rfl
  exact ⟨point, forking.embryo p np point⟩

theorem unparented (forking : Forking m) {p np : Slot} (mine : (m.point p).forking = some np)
    (early : ¬ m.Parented p np) (q : Slot) : ¬ m.Parented q np := by
  intro makes
  rw [forking.unique q p np (forking.of_parented makes).1 mine] at makes
  exact early makes

theorem orphan_of_early (books : m.Recorded events) (forking : Forking m) {p np : Slot}
    (mine : (m.point p).forking = some np) (early : ¬ m.Parented p np) : (m.table.proc np).parent = none := by
  by_contra hasParent
  obtain ⟨q, makes⟩ := (books.entry np).making (forking.embryo p np mine) hasParent
  exact unparented forking mine early q makes

/-- `fork` gives back the slot of a child it has not made its own. -/
theorem given_back (books : m.Recorded events) (forking : Forking m) {p np : Slot} {old : Point}
    (at_ : m.point p = old) (makes : old.forking = some np) (early : ∀ child, old ≠ .parented child)
    (unused : proc.state = .UNUSED) (parent : proc.parent = (m.table.proc np).parent)
    (point : next.point = update m.point p .user) :
    Books (events ++ (none : Option Event).toList) (m.table.set np proc) next.Parented := by
  have mine : (m.point p).forking = some np := at_ ▸ makes
  have notYet : ¬ m.Parented p np := fun parented => early np (at_.symm.trans parented)
  refine books.vacated (fun active => active.notEmbryo (forking.embryo p np mine)) unused
    (parent.trans (orphan_of_early books forking mine notYet)) (unparented forking mine notYet) ?_
    (.none np) (parented_update at_ point early nofun)
  · rw [Option.toList_none, List.append_nil]

theorem recorded_step (forking : Forking m) (books : m.Recorded events)
    (effect : Effect m event next) (few : (events ++ event.toList).count .allocated < 2 ^ 31) :
    next.Recorded (events ++ event.toList) := by
  unfold Machine.Recorded
  cases effect with
  | quiet quiet silent =>
    have same (p np : Slot) : next.Parented p np ↔ m.Parented p np := by
      unfold Machine.Parented
      rw [← Point.stage_parented, quiet.stage, Point.stage_parented]
    refine books.kept ?_ (fun q => (quiet.calm q).pid) (fun q => (quiet.calm q).parent)
      (fun q => (quiet.calm q).state) quiet.nextpid same
    rcases silent with rfl | ⟨p, rfl⟩
    · nofun
    · rintro _ ⟨⟩
      exact ⟨rfl, nofun⟩
  | @reap _ p x at_ running found table _ point =>
    obtain ⟨isParent, zombie⟩ := waitScan_found found
    have used : (m.table.proc x).Used := fun unused => absurd (unused.symm.trans zombie) nofun
    rw [table]
    refine books.vacated (fun active => active.notZombie zombie) ?_ ?_ (fun q makes => ?_) ?_
      (.some rfl fun pid named => ⟨used, ?_⟩) (parented_update at_ point nofun nofun)
    · rfl
    · rfl
    · exact absurd (zombie.symm.trans (forking.of_parented makes).2) nofun
    · rw [List.count_append]
      rfl
    · exact List.mem_singleton.mp named
  | @exit _ p at_ running notFirst table _ point =>
    have active : (m.table.proc p).Active := Proc.Alive.active (.inl running)
    rw [table]
    refine books.exits active (running ▸ nofun) notFirst (fun np makes => ?_) (parented_update at_ point nofun nofun)
    exact absurd (at_.symm.trans makes) nofun
  | @embryo _ p np at_ _ found table _ point =>
    rw [table]
    refine books.embryo (findUnused_state found) ?_ (parented_update at_ point nofun nofun)
    rw [List.count_append] at few
    exact few
  | @noStack _ p np at_ table _ point | @noMemory _ p np at_ table _ point =>
    rw [table]
    exact given_back books forking at_ rfl nofun rfl rfl point
  | @stack _ p np page at_ _ table _ point =>
    have mine : (m.point p).forking = some np := at_ ▸ rfl
    rw [table]
    refine books.setPages np ?_ ?_ ?_ fun q child => ?_
    · rfl
    · rfl
    · rfl
    · unfold Machine.Parented
      rw [point]
      by_cases maker : q = p
      · rw [maker, update_self, at_]
        exact ⟨nofun, nofun⟩
      · rw [update_of_ne maker]
        by_cases embryo : q = np
        · -- the child has made no child of its own
          rw [embryo, update_self]
          refine ⟨nofun, fun makes => ?_⟩
          exact absurd (forking.embryo p np mine) (forking.notEmbryo (forking.of_parented makes).1)
        · rw [update_of_ne embryo]
  | @memory _ p np page at_ _ table _ point =>
    rw [table]
    refine books.setPages np ?_ ?_ ?_ (parented_update at_ point nofun nofun)
    · rfl
    · rfl
    · rfl
  | @parent _ p np at_ table _ point =>
    have mine : (m.point p).forking = some np := at_ ▸ rfl
    have early : ¬ m.Parented p np := fun makes => absurd (at_.symm.trans makes) nofun
    rw [table]
    refine books.adopted (forking.embryo p np mine) (Proc.Alive.active (forking.alive p np mine))
      (fun q child => ?_) (unparented forking mine early)
    unfold Machine.Parented
    rw [point]
    by_cases same : q = p
    · rw [same, at_]
      simp [eq_comm]
    · simp [same]
  | @publish _ p np at_ table _ point =>
    have mine : (m.point p).forking = some np := at_ ▸ rfl
    rw [table]
    refine books.published (forking.embryo p np mine) at_ (fun q child => ?_) (fun child makes => ?_)
      fun q makes => forking.unique q p np (forking.of_parented makes).1 mine
    · unfold Machine.Parented
      rw [point]
      by_cases same : q = p
      · rw [same]
        simp
      · simp [same]
    · exact (Point.parented.inj (at_.symm.trans makes)).symm

theorem boot_recorded {kstack pgdir : Frame} : (Machine.boot Cpu kstack pgdir).Recorded [] := by
  have only {q : Slot} (used : ((userinit kstack pgdir).proc q).Used) : q = initproc := by
    by_contra other
    rw [userinit_other other] at used
    exact used rfl
  have table : (Machine.boot Cpu kstack pgdir).table = userinit kstack pgdir := rfl
  unfold Machine.Recorded
  rw [table]
  refine ⟨?_, ?_, nofun, List.nodup_nil, List.nodup_nil, fun q => ?_, nofun, ?_⟩
  · rfl
  · intro p q usedP usedQ _
    rw [only usedP, only usedQ]
  · by_cases isFirst : q = initproc
    · subst isFirst
      constructor <;> rw [userinit_first]
      · exact fun _ => (by decide : (1 : Pid).toNat < (2 : Pid).toNat)
      · nofun
      · exact fun _ => ⟨nofun, nofun⟩
      · nofun
      · exact fun _ _ notFirst => absurd rfl notFirst
      · nofun
      · nofun
    · refine Books.entry_of_unused ?_ ?_ <;> rw [userinit_other isFirst]
  · exact ⟨rfl, rfl⟩

variable [DecidableEq Cpu] {kstack pgdir : Frame}

theorem recorded_of_run (run : Runs (Machine.boot Cpu kstack pgdir) events m)
    (few : events.count .allocated < 2 ^ 31) : m.Recorded events := by
  induction run with
  | refl => exact boot_recorded
  | snoc before last ih =>
    have consistent := consistent_of_run before
    have fewer := few
    rw [List.count_append] at fewer
    exact recorded_step consistent.forking (ih (Nat.lt_of_le_of_lt (Nat.le_add_right ..) fewer))
      (last.effect consistent.control) few

/-- Who gets the pid of a child from `wait`, seen at the moment of the call. -/
def RightfulReap (before : List Event) (parent child : Pid) : Prop :=
  .exited child ∈ before ∧ ∃ creator, .forked creator child ∈ before ∧
    (parent = creator ∧ .exited creator ∉ before ∨ parent = 1 ∧ .exited creator ∈ before)

section

variable (run : Runs (Machine.boot Cpu kstack pgdir) events m)
include run

theorem rightful_of_reap (few : events.count .allocated < 2 ^ 31) {parent child : Pid} {slot : Slot}
    (step : Step m (some (.reaped parent slot child)) next) : RightfulReap events parent child := by
  have books := recorded_of_run run few
  have effect := step.effect (consistent_of_run run).control
  cases effect with
  | quiet _ silent =>
    rcases silent with none | ⟨_, failed⟩
    · cases none
    · cases failed
  | @reap _ p x at_ running found _ _ _ =>
    obtain ⟨isParent, zombie⟩ := waitScan_found found
    have used : (m.table.proc slot).Used := fun unused => absurd (unused.symm.trans zombie) nofun
    have notFirst : slot ≠ initproc := by
      rintro rfl
      exact books.first.1.notZombie zombie
    obtain ⟨s, creator, parentIs, made, known⟩ :=
      (books.entry slot).parents used (zombie ▸ nofun) notFirst
    obtain rfl := Option.some.inj (parentIs.symm.trans isParent)
    have active : (m.table.proc s).Active := Proc.Alive.active (.inl running)
    refine ⟨((books.entry slot).exited used).mpr zombie, creator, made, ?_⟩
    rcases known with creates | ⟨first, ended⟩
    · refine .inl ⟨creates, fun ended => ?_⟩
      rw [← creates] at ended
      exact active.notZombie (((books.entry s).exited active.used).mp ended)
    · refine .inr ⟨?_, ended⟩
      rw [first]
      exact books.first.2

theorem run_split {before after : List Event} {event : Event} (split : events = before ++ event :: after) :
    ∃ (here there : Machine Cpu), Runs (Machine.boot Cpu kstack pgdir) before here ∧ Step here (some event) there := by
  induction run generalizing after with
  | refl => exact absurd split (by simp)
  | @snoc events middle last label runs step ih =>
    cases label with
    | none =>
      rw [Option.toList_none, List.append_nil] at split
      exact ih split
    | some final =>
      cases after using List.reverseRecOn with
      | nil =>
        obtain ⟨same, isFinal⟩ := List.append_inj' split rfl
        cases isFinal
        exact ⟨middle, last, same ▸ runs, step⟩
      | append_singleton after tail _ =>
        have regrouped : events ++ [final] = (before ++ event :: after) ++ [tail] := by
          rw [show events ++ [final] = before ++ event :: (after ++ [tail]) from split]
          simp
        exact ih (List.append_inj' regrouped rfl).1

/-- `fork` returns every pid once and `wait` returns it at most once, after the
child has exited, to its creator or, when the creator has exited, to `initproc`;
`wait` fails for a process without children or that was killed only. -/
theorem children_reaped_once (few : events.count .allocated < 2 ^ 31) :
    (forks events).Nodup ∧ (reaps events).Nodup ∧
    (∀ before after parent slot child, events = before ++ .reaped parent slot child :: after →
      RightfulReap before parent child) ∧
    ∀ p next, Step m (some (.waitFailed p)) next →
      (∀ q, (m.table.proc q).parent ≠ some p) ∨ (m.table.proc p).killed = true := by
  have books := recorded_of_run run few
  refine ⟨books.forkedOnce, books.reapedOnce, fun before after parent slot child split => ?_, ?_⟩
  · obtain ⟨here, there, runs, step⟩ := run_split run split
    refine rightful_of_reap runs ?_ step
    rw [split, List.count_append] at few
    exact Nat.lt_of_le_of_lt (Nat.le_add_right ..) few
  · intro p next step
    cases step with
    | waitFails _ _ _ failed => exact waitScan_failed failed

end

end Runs

/-- `initproc` makes a child. -/
theorem children_reaped_once_first : ∃ (events : List Event) (m : Machine Unit),
    Runs (Machine.boot Unit 5 6) events m ∧ forks events = [2] ∧ (forks events).Nodup ∧ (reaps events).Nodup := by
  have scanned := Runs.snoc (@Runs.refl Unit _ (Machine.boot Unit 5 6)) (.acquire (c := ()) rfl rfl)
  have picked := scanned.snoc (.pick (c := ()) (k := initproc) rfl (congrArg Proc.state userinit_first))
  have resumed := picked.snoc (.resume (c := ()) (p := initproc) rfl rfl rfl)
  have embryo := resumed.snoc (@Step.embryo Unit _ _ () initproc 1 rfl rfl rfl rfl (by decide +kernel))
  have stack := embryo.snoc (@Step.stack Unit _ _ () initproc 1 7 rfl rfl rfl rfl)
  have memory := stack.snoc (@Step.memory Unit _ _ () initproc 1 8 rfl rfl rfl rfl)
  have parent := memory.snoc (@Step.parent Unit _ _ () initproc 1 rfl rfl rfl)
  have publish := parent.snoc (@Step.publish Unit _ _ () initproc 1 rfl rfl rfl)
  have shown := children_reaped_once publish (by decide)
  exact ⟨_, _, publish, rfl, shown.1, shown.2.1⟩

end Xv6Dedup.Process
