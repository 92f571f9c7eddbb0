import Xv6Dedup.Sleeping.Rules

/-!
# Locks, conditions and calls

Which lock is held at each point, what a process that sleeps there waits for, and
on which channel a process still has to call. The code keeps this discipline in
every state in which an inode being locked has a reference, a full pipe found full
is still full, no process is its own parent, and nobody gives up writing to a full
pipe while a reader sleeps.
-/

set_option autoImplicit false

namespace Xv6Dedup.Sleeping

open Monitor

def Point.held : Point → Option Lock
  | .beginTest | .beginSleep | .beginLeave | .commitClear | .commitWake | .commitLeave => some .log
  | .igetTake _ | .icacheLeave | .ilockTest _ | .ilockSleep _ | .iunlockClear _ | .iunlockWake _
  | .iputTest _ _ | .iputTrunc _ | .iputClear _ | .iputWake _ | .iputDrop _ => some .icache
  | .bgetSearch _ | .bgetSleep _ _ | .bcacheLeave | .brelseClear _ | .brelseWake _ => some .bcache
  | .iderwQueue _ | .iderwTest _ | .iderwSleep _ | .ideLeave | .ideintrTake | .ideintrWake _ =>
    some .ide
  | .writeStart call | .writeFill call _ | .writeFull call _ | .writeSleep call _
  | .writeWake call => some (.pipe call.pipe)
  | .pipeLeave q | .readTest q _ | .readSleep q _ | .readTake q _ _ | .readWake q | .closeSet q _
  | .closeWake q _ => some (.pipe q)
  | .consoleTest _ _ | .consoleSleep _ _ | .inputLeave | .consoleintrPut _ | .consoleintrWake _ =>
    some .input
  | .sleepStart _ | .sleepTest _ _ | .sleepSleep _ _ | .ticksLeave | .clockAdd | .clockWake =>
    some .ticks
  | .panicked held => held
  | _ => none

def Point.owed : Point → Option Chan
  | .commitWake => some .log
  | .iunlockWake i | .iputWake i => some (.inode i)
  | .brelseWake b | .ideintrWake b => some (.buf b)
  | .writeFill call _ | .writeFull call _ | .writeWake call => some (.nread call.pipe)
  | .readTake q _ _ | .readWake q => some (.nwrite q)
  | .closeWake q writable => some (if writable then .nread q else .nwrite q)
  | .consoleintrWake _ => some .input
  | .clockWake => some .ticks
  | _ => none

inductive Cond where
  | log
  | inode (i : Nat)
  | cached (b : Fin NBUF)
  | synced (b : Fin NBUF)
  | room (q : Nat)
  | bytes (q : Nat)
  | typed
  | ticked (n ticks0 : BitVec 32)
  | child (p : Slot)

namespace Cond

def holds (k : Kernel) : Cond → Prop
  | .log => k.logBusy = false
  | .inode i => (k.inodes i).busy = false
  | .cached b => (k.bufs b).busy = false
  | .synced b => (k.bufs b).valid = true ∧ (k.bufs b).dirty = false
  | .room q => ¬ (k.pipes q).full ∨ (k.pipes q).readopen = false
  | .bytes q => ¬ (k.pipes q).empty ∨ (k.pipes q).writeopen = false
  | .typed => k.input.r ≠ k.input.w
  | .ticked n ticks0 => ¬ (k.ticks - ticks0).toNat < n.toNat
  | .child p => ∃ q, IsZombieChild k.procs p q

def lock : Cond → Option Lock
  | .log => some .log
  | .inode _ => some .icache
  | .cached _ => some .bcache
  | .synced _ => some .ide
  | .room q | .bytes q => some (.pipe q)
  | .typed => some .input
  | .ticked _ _ => some .ticks
  | .child _ => none

def chan : Cond → Chan
  | .log => .log
  | .inode i => .inode i
  | .cached b | .synced b => .buf b
  | .room q => .nwrite q
  | .bytes q => .nread q
  | .typed => .input
  | .ticked _ _ => .ticks
  | .child p => .proc p

end Cond

def awaited : Agent → Point → Option Cond
  | .proc _, .beginSleep => some .log
  | .proc _, .ilockSleep i => some (.inode i)
  | .proc _, .bgetSleep _ b => some (.cached b)
  | .proc _, .iderwSleep b => some (.synced b)
  | .proc _, .writeSleep call _ => some (.room call.pipe)
  | .proc _, .readSleep q _ => some (.bytes q)
  | .proc _, .consoleSleep _ _ => some .typed
  | .proc _, .sleepSleep n ticks0 => some (.ticked n ticks0)
  | .proc p, .wait => some (.child p)
  | _, _ => none

def discipline : Spec Agent Lock Chan Kernel Point where
  held := Point.held
  waits agent point k := ∃ c, awaited agent point = some c ∧ c.holds k
  owes point chan := point.owed = some chan

variable {point : Point} {chan : Chan} {lock : Lock} {q : Agent}

theorem awaited_of_sleep {next : Point} (is : code q point = .sleep chan lock next) :
    ∃ c, awaited q point = some c ∧ c.lock = some lock ∧ c.chan = chan := by
  cases q with
  | proc p => cases point <;> cases is <;> exact ⟨_, rfl, rfl, rfl⟩
  | interrupt cpu => cases point <;> cases is

variable {effect : Kernel → Section Agent Chan Kernel Point}

theorem awaited_of_atomic {c : Cond} (is : code q point = .atomic effect chan)
    (waits : awaited q point = some c) : c.lock = none ∧ c.chan = chan := by
  cases q with
  | proc p => cases point <;> cases is <;> cases waits; exact ⟨rfl, rfl⟩
  | interrupt cpu => cases point <;> cases is <;> cases waits

theorem awaited_inode {i : Nat} (waits : awaited q point = some (.inode i)) :
    ∃ p, q = .proc p ∧ point = .ilockSleep i := by
  cases q with
  | proc p => cases point <;> cases waits; exact ⟨p, rfl, rfl⟩
  | interrupt cpu => cases point <;> cases waits

section Advance

variable {s : System} {agent : Agent}

theorem advance {wakes : Agent → Chan → Bool} {data : Kernel} {point' : Point} (at_ : s.point agent = point)
    (held : point'.held = point.held) (keeps : ∀ q c, awaited q (s.point q) = some c → c.holds data →
      c.holds s.data ∨ c.lock ≠ none ∧ c.lock = point.held ∧ point'.owed = some c.chan ∨
        c.lock = none ∧ wakes q c.chan = true)
    (untested : ∀ c, awaited agent point' = some c → c.lock ≠ none → ¬ c.holds data)
    (owes : ∀ chan, point.owed = some chan → point'.owed = some chan ∨ (∀ q, wakes q chan = true) ∨
      ∀ q lock, point.held = some lock → ¬ s.Sleeps code q chan lock) :
    Advance code discipline s agent wakes data point' := by
  subst at_
  refine ⟨held, ⟨fun q _ chan lock next is waits => ?_, fun q _ effect chan is waits => ?_⟩,
    fun restless waits => ?_, owes⟩
  · obtain ⟨c, is', holds⟩ := waits
    obtain ⟨c', is'', lockIs, chanIs⟩ := awaited_of_sleep is
    cases is'.symm.trans is''
    rcases keeps q c is' holds with before | ⟨_, locks, calls⟩ | ⟨none, _⟩
    · exact .inl ⟨c, is', before⟩
    · exact .inr ⟨locks.symm.trans lockIs, chanIs ▸ calls⟩
    · exact absurd (none.symm.trans lockIs) nofun
  · obtain ⟨c, is', holds⟩ := waits
    obtain ⟨none, chanIs⟩ := awaited_of_atomic is is'
    rcases keeps q c is' holds with before | ⟨some, _⟩ | ⟨_, called⟩
    · exact .inl ⟨c, is', before⟩
    · exact absurd none some
    · exact .inr (chanIs ▸ called)
  · unfold Monitor.Calm at restless
    push Not at restless
    obtain ⟨chan, lock, next, is⟩ := restless
    obtain ⟨c, is', lockIs, _⟩ := awaited_of_sleep is
    obtain ⟨c', is'', holds⟩ := waits
    cases is'.symm.trans is''
    exact untested c is' (by rw [lockIs]; nofun) holds

theorem advance_same {wakes : Agent → Chan → Bool} {point' : Point} (at_ : s.point agent = point)
    (held : point'.held = point.held) (untested : ∀ c, awaited agent point' = some c → c.lock ≠ none → ¬ c.holds s.data)
    (owes : ∀ chan, point.owed = some chan → point'.owed = some chan ∨ (∀ q, wakes q chan = true) ∨
      ∀ q lock, point.held = some lock → ¬ s.Sleeps code q chan lock) :
    Advance code discipline s agent wakes s.data point' :=
  advance at_ held (fun _ _ _ holds => .inl holds) untested owes

end Advance

/-! ## The states the code is written for -/

def Point.locking : Point → Option Nat
  | .ilockEnter i | .ilockTest i | .ilockSleep i => some i
  | _ => none

structure Steady (s : System) : Prop where
  alive : ∀ p, s.point (.proc p) ≠ .gone → (s.data.procs p).life = .alive
  init : (s.data.procs initproc).parent = none ∧ (s.data.procs initproc).life = .alive
  exits : ∀ p, s.point (.proc p) = .exitLocked → p ≠ initproc
  parents : ∀ p, (s.data.procs p).parent ≠ some p
  refs : ∀ p i, (s.point (.proc p)).locking = some i → 0 < (s.data.inodes i).refs p
  full : ∀ p call i, s.point (.proc p) = .writeFull call i →
    (s.data.pipes call.pipe).full ∧ (s.data.pipes call.pipe).readopen = true

/-- When `pipewrite` gives up on a full pipe, nobody sleeps in `piperead` on it. -/
def ReadersAwake (s : System) (agent : Agent) : Prop :=
  ∀ p call i, agent = .proc p → s.point agent = .writeFill call i → (i : Int) < call.n →
    (s.data.pipes call.pipe).full →
    (s.data.pipes call.pipe).readopen = false ∨ (s.data.procs p).killed = true →
    ∀ q n, s.point (.proc q) = .readSleep call.pipe n → s.phase (.proc q) ≠ .parting ∧ s.phase (.proc q) ≠ .asleep

theorem sleeps_nread {s : System} {pipe : Nat} (sleeps : s.Sleeps code q (.nread pipe) lock) :
    ∃ p n, q = .proc p ∧ s.point q = .readSleep pipe n := by
  obtain ⟨_, next, is⟩ := sleeps
  generalize s.point q = point at is
  cases q with
  | proc p => cases point <;> cases is; exact ⟨p, _, rfl, rfl⟩
  | interrupt cpu => cases point <;> cases is

theorem killLine_same (input : Input) (fuel : Nat) :
    (killLine input fuel).r = input.r ∧ (killLine input fuel).w = input.w := by
  induction fuel generalizing input with
  | zero => exact ⟨rfl, rfl⟩
  | succ fuel ih =>
    unfold killLine
    split
    · exact ih _
    · exact ⟨rfl, rfl⟩

theorem typeChar_silent {c : Byte} {input : Input} (silent : (typeChar c input).2 = false) :
    (typeChar c input).1.r = input.r ∧ (typeChar c input).1.w = input.w := by
  revert silent
  unfold typeChar
  dsimp only
  repeat' split
  all_goals
    intro silent
    first | exact ⟨rfl, rfl⟩ | exact killLine_same _ _ | cases silent

section Obeys

variable {s : System} {p : Slot}

theorem holds_update {α β : Type} [DecidableEq α] {a b : α} {value : β} (f : α → β) (P : β → Prop)
    (holds : P (Function.update f a value b)) : b = a ∧ P value ∨ P (f b) := by
  by_cases same : b = a
  · subst same
    rw [Function.update_self] at holds
    exact .inl ⟨rfl, holds⟩
  · rw [Function.update_of_ne same] at holds
    exact .inr holds

theorem holds_buf {b : Fin NBUF} {buf : Buf} {order queue : List (Fin NBUF)} {c : Cond} {owes : Prop}
    (holds : c.holds { s.data.setBuf b buf with order := order, idequeue := queue })
    (cached : buf.busy = false → c = .cached b → (s.data.bufs b).busy = false ∨ owes)
    (synced : buf.valid = true → buf.dirty = false → c = .synced b →
      (s.data.bufs b).valid = true ∧ (s.data.bufs b).dirty = false ∨ owes) :
    c.holds s.data ∨ owes := by
  cases c with
  | cached b' =>
    rcases holds_update s.data.bufs (·.busy = false) holds with ⟨rfl, now⟩ | before
    · exact cached now rfl
    · exact .inl before
  | synced b' =>
    rcases holds_update s.data.bufs (fun buf => buf.valid = true ∧ buf.dirty = false) holds with
      ⟨rfl, now⟩ | before
    · exact synced now.1 now.2 rfl
    · exact .inl before
  | _ => exact .inl holds

theorem advance_process {effect : Kernel → Kernel × Point} (steady : Steady s)
    (readers : ReadersAwake s (.proc p)) (at_ : s.point (.proc p) = point) (is : procCode p point = .access effect) :
    (procCode p point).Ensures point s.data (Advance code discipline s (.proc p) fun _ _ => false) := by
  -- without a change, to a point where nothing is awaited and nothing was owed
  have goes {point' : Point} (held : point'.held = point.held)
      (calm : awaited (.proc p) point' = none) (clear : point.owed = none) :
      Advance code discipline s (.proc p) (fun _ _ => false) s.data point' :=
    advance_same at_ held (fun c waits => absurd (calm.symm.trans waits) nofun)
      fun chan owes => absurd (clear.symm.trans owes) nofun
  -- without a change, to a point where the condition just tested is awaited
  have sleeps {point' : Point} {c : Cond} (held : point'.held = point.held)
      (waits : awaited (.proc p) point' = some c) (fails : ¬ c.holds s.data)
      (clear : point.owed = none) :
      Advance code discipline s (.proc p) (fun _ _ => false) s.data point' :=
    advance_same at_ held (fun c' waits' => by cases waits.symm.trans waits'; exact fun _ => fails)
      fun chan owes => absurd (clear.symm.trans owes) nofun
  -- with a change that makes nothing come true without a call being owed
  have sets {k' : Kernel} {point' : Point} (held : point'.held = point.held)
      (calm : awaited (.proc p) point' = none) (clear : point.owed = none)
      (keeps : ∀ q c, awaited q (s.point q) = some c → c.holds k' →
        c.holds s.data ∨ c.lock ≠ none ∧ c.lock = point.held ∧ point'.owed = some c.chan) :
      Advance code discipline s (.proc p) (fun _ _ => false) k' point' :=
    advance at_ held (fun q c waits holds => (keeps q c waits holds).imp id .inl)
      (fun c waits => absurd (calm.symm.trans waits) nofun)
      fun chan owes => absurd (clear.symm.trans owes) nofun
  have at_inode {i : Nat} {inode : Inode} {c : Cond} {owes : Prop} (holds : c.holds (s.data.setInode i inode))
      (here : inode.busy = false → c = .inode i → (s.data.inodes i).busy = false ∨ owes) : c.holds s.data ∨ owes := by
    cases c with
    | inode j =>
      rcases holds_update s.data.inodes (·.busy = false) holds with ⟨rfl, now⟩ | before
      · exact here now rfl
      · exact .inl before
    | _ => exact .inl holds
  have at_pipe {q : Nat} {pipe : Pipe} {c : Cond} {owes : Prop} (holds : c.holds (s.data.setPipe q pipe))
      (room : c = .room q → ¬ pipe.full ∨ pipe.readopen = false → c.holds s.data ∨ owes)
      (bytes : c = .bytes q → ¬ pipe.empty ∨ pipe.writeopen = false →
        c.holds s.data ∨ owes) : c.holds s.data ∨ owes := by
    cases c with
    | room q' =>
      rcases holds_update s.data.pipes (fun pipe => ¬ pipe.full ∨ pipe.readopen = false) holds with
        ⟨rfl, now⟩ | before
      · exact room rfl now
      · exact .inl before
    | bytes q' =>
      rcases holds_update s.data.pipes (fun pipe => ¬ pipe.empty ∨ pipe.writeopen = false) holds with
        ⟨rfl, now⟩ | before
      · exact bytes rfl now
      · exact .inl before
    | _ => exact .inl holds
  cases point with
  | gone | exit | ilockCheck i | iunlockCheck i | brelseCheck b | iderwCheck b =>
    exact ensures_goto (fun _ => goes rfl rfl rfl) fun _ => goes rfl rfl rfl
  | iderwTest b =>
    exact ensures_goto (fun _ => goes rfl rfl rfl) fun unsynced => sleeps rfl rfl unsynced rfl
  | beginTest =>
    refine ensures_ite (fun busy => sleeps rfl rfl (by simp [Cond.holds, busy]) rfl) fun _ =>
      sets rfl rfl rfl fun _ c _ holds => ?_
    cases c with
    | log => cases holds
    | _ => exact .inl holds
  | commitClear =>
    refine sets rfl rfl rfl fun _ c _ holds => ?_
    cases c with
    | log => exact .inr ⟨nofun, rfl, rfl⟩
    | _ => exact .inl holds
  | igetTake i =>
    refine sets rfl rfl rfl fun q c waits holds => at_inode holds ?_
    rintro free rfl
    -- who waits for the inode has a reference, so the entry is not recycled
    obtain ⟨r, rfl, isThere⟩ := awaited_inode waits
    exact .inl (by simpa [(⟨r, steady.refs r i (isThere ▸ rfl)⟩ : ∃ q, 0 < (s.data.inodes i).refs q)] using free)
  | forget i | iputDrop i =>
    exact sets rfl rfl rfl fun _ _ _ holds =>
      at_inode holds fun free _ => .inl free
  | ilockTest i =>
    exact ensures_ite (fun busy => sleeps rfl rfl (by simp [Cond.holds, busy]) rfl) fun _ =>
      sets rfl rfl rfl fun _ _ _ holds => at_inode holds nofun
  | iunlockClear i | iputClear i =>
    exact sets rfl rfl rfl fun _ _ _ holds =>
      at_inode holds fun _ is => .inr (is ▸ ⟨nofun, rfl, rfl⟩)
  | iputTest i frees =>
    exact ensures_ite (fun _ => ensures_ite (fun _ => goes rfl rfl rfl) fun _ =>
      sets rfl rfl rfl fun _ _ _ holds => at_inode holds nofun)
      fun _ => goes rfl rfl rfl
  | bgetSearch sector =>
    exact bgetSearch_ensures (fun b busy => sleeps (c := .cached b) rfl rfl (by simp [Cond.holds, busy]) rfl)
      (fun b _ => sets rfl rfl rfl fun _ c _ holds => holds_buf holds nofun fun valid clean _ =>
        .inl ⟨valid, clean⟩)
      (fun b _ => sets rfl rfl rfl fun _ c _ holds => holds_buf holds nofun nofun)
      (goes rfl rfl rfl)
  | brelseClear b =>
    exact sets rfl rfl rfl fun _ c _ holds => holds_buf holds
      (fun _ is => .inr (is ▸ ⟨nofun, rfl, rfl⟩)) fun valid clean _ => .inl ⟨valid, clean⟩
  | dirty b =>
    exact sets rfl rfl rfl fun _ c _ holds => holds_buf holds (fun free _ => .inl free) nofun
  | iderwQueue b | writeStart call =>
    refine sets rfl rfl rfl fun _ c _ holds => ?_
    cases c <;> exact .inl holds
  | writeFill call i =>
    refine writeFill_ensures (fun more full dead => ?_)
      (fun _ _ _ => advance_same at_ rfl nofun fun _ owes => .inl owes) (fun _ room => ?_)
      (advance_same at_ rfl nofun fun _ owes => .inl owes)
    · refine advance_same at_ rfl nofun fun chan owes => .inr (.inr fun q lock _ asleep => ?_)
      cases owes
      obtain ⟨r, n, rfl, isThere⟩ := sleeps_nread asleep
      obtain ⟨notParting, notAsleep⟩ := readers p call i rfl at_ more full dead r n isThere
      exact asleep.1.elim notParting notAsleep
    · refine advance at_ rfl (fun _ c _ holds => at_pipe holds (fun is _ => ?_) fun is _ => ?_)
        nofun fun _ owes => .inl owes
      · exact .inl (is ▸ .inl room)
      · exact .inr (.inl (is ▸ ⟨nofun, rfl, rfl⟩))
  | readTest q n =>
    refine readTest_ensures (goes rfl rfl rfl) (fun isEmpty isOpen _ => ?_) (goes rfl rfl rfl)
    exact sleeps (c := .bytes q) rfl rfl (by simp [Cond.holds, isEmpty, isOpen]) rfl
  | readTake q n i =>
    refine readTake_ensures (fun some => ?_) (advance_same at_ rfl nofun fun _ owes => .inl owes)
    refine advance at_ rfl (fun _ c _ holds => at_pipe holds (fun is _ => ?_) fun is _ => ?_)
      nofun fun _ owes => .inl owes
    · exact .inr (.inl (is ▸ ⟨nofun, rfl, rfl⟩))
    · exact .inl (is ▸ .inl some)
  | closeSet q writable =>
    cases writable with
    | true =>
      exact sets rfl rfl rfl fun _ c _ holds => at_pipe holds (fun is same => .inl (is ▸ same))
        fun is _ => .inr (is ▸ ⟨nofun, rfl, rfl⟩)
    | false =>
      exact sets rfl rfl rfl fun _ c _ holds => at_pipe holds
        (fun is _ => .inr (is ▸ ⟨nofun, rfl, rfl⟩)) fun is same => .inl (is ▸ same)
  | consoleTest target n =>
    have reads {point' : Point} (some : s.data.input.r ≠ s.data.input.w)
        (held : point'.held = .some .input) (calm : awaited (.proc p) point' = none) :
        Advance code discipline s (.proc p) (fun _ _ => false)
          { s.data with input := { s.data.input with r := s.data.input.r + 1 } } point' := by
      refine sets held calm rfl fun _ c _ holds => ?_
      cases c with
      | typed => exact .inl some
      | _ => exact .inl holds
    exact consoleTest_ensures (goes rfl rfl rfl)
      (fun isEmpty _ => sleeps (c := .typed) rfl rfl (fun typed => typed isEmpty) rfl)
      fun some => ⟨reads some rfl rfl, reads some rfl rfl⟩
  | sleepStart n => exact goes rfl rfl rfl
  | sleepTest n ticks0 =>
    exact sleepTest_ensures (goes rfl rfl rfl) fun early _ =>
      sleeps (c := .ticked n ticks0) rfl rfl (fun late => late early) rfl
  | _ => cases is

theorem advance_interrupt {cpu : Nat} {effect : Kernel → Kernel × Point}
    (at_ : s.point (.interrupt cpu) = point) (is : interruptCode point = .access effect) :
    (interruptCode point).Ensures point s.data (Advance code discipline s (.interrupt cpu) fun _ _ => false) := by
  cases point with
  | ideintrTake =>
    refine ideintrTake_ensures (advance_same at_ rfl nofun nofun) fun b rest _ =>
      advance at_ rfl (fun _ c _ holds => holds_buf holds (fun free _ => .inl free)
        fun _ _ is => .inr (.inl (is ▸ ⟨nofun, rfl, rfl⟩))) nofun nofun
  | consoleintrPut typed =>
    refine consoleintrPut_ensures (advance_same at_ rfl nofun nofun) (fun c' rest _ =>
      advance at_ rfl (fun _ c _ holds => ?_) nofun nofun) fun c' rest silent =>
      advance at_ rfl (fun _ c _ holds => ?_) nofun nofun
    · cases c with
      | typed => exact .inr (.inl ⟨nofun, rfl, rfl⟩)
      | _ => exact .inl holds
    · cases c with
      | typed =>
        obtain ⟨sameR, sameW⟩ := typeChar_silent silent
        exact .inl fun same => holds (by rw [sameR, sameW, same])
      | _ => exact .inl holds
  | clockAdd =>
    refine advance at_ rfl (fun _ c _ holds => ?_) nofun nofun
    cases c with
    | ticked n ticks0 => exact .inr (.inl ⟨nofun, rfl, rfl⟩)
    | _ => exact .inl holds
  | _ => cases is

variable {agent : Agent}

theorem advance_section {next : Point} (steady : Steady s) (at_ : s.point agent = point)
    (is : code agent point = .atomic effect chan) (goes : (effect s.data).next = some next) :
    Advance code discipline s agent (effect s.data).wakes (effect s.data).data next := by
  -- a call that was owed
  have calls {chan : Chan} {point' : Point} (held : point'.held = point.held)
      (untested : ∀ c, awaited agent point' = some c → c.lock ≠ none → ¬ c.holds s.data)
      (owed : ∀ other, point.owed = some other → other = chan) :
      Advance code discipline s agent (fun _ other => other = chan) s.data point' :=
    advance_same at_ held untested fun other owes =>
      .inr (.inl fun _ => decide_eq_true (owed other owes))
  have kept {procs : Slot → Proc} {r child : Slot} (zombie : IsZombieChild procs r child)
      (parent : (procs child).parent = (s.data.procs child).parent)
      (life : (procs child).life = (s.data.procs child).life) :
      (Cond.child r).holds s.data :=
    ⟨child, parent.symm.trans zombie.1, life.symm.trans zombie.2⟩
  cases agent with
  | interrupt cpu =>
    cases point <;> cases is <;> cases goes <;>
      exact calls rfl nofun fun _ owes => (Option.some.inj owes).symm
  | proc p =>
    cases point with
    | writeFull call i =>
      cases is
      cases goes
      obtain ⟨full, isOpen⟩ := steady.full p call i at_
      refine calls rfl (fun c waits _ holds => ?_) fun _ owes => (Option.some.inj owes).symm
      cases waits
      rcases holds with room | closed
      · exact room full
      · exact absurd (isOpen.symm.trans closed) nofun
    | wait =>
      cases is
      rcases waitSection_cases p s.data with ⟨q, zombie, section_⟩ | ⟨_, data, wakes, none | user⟩
      · rw [section_] at goes ⊢
        cases goes
        refine advance at_ rfl (fun _ c _ holds => ?_) nofun nofun
        cases c with
        | child r =>
          obtain ⟨child, found⟩ := holds
          have other : child ≠ q := by
            rintro rfl
            simp [IsZombieChild, Kernel.setProc] at found
          have same := Function.update_of_ne other ({} : Proc) s.data.procs
          exact .inl (kept found (congrArg Proc.parent same) (congrArg Proc.life same))
        | _ => exact .inl holds
      · exact absurd (goes.symm.trans none) nofun
      · obtain rfl := Option.some.inj (goes.symm.trans user)
        rw [data]
        exact advance_same at_ rfl nofun nofun
    | exitLocked =>
      cases is
      cases goes
      refine advance at_ rfl (fun _ c _ holds => ?_) nofun nofun
      cases c with
      | child r =>
        obtain ⟨child, parent, dead⟩ := holds
        simp only [exitSection, exitProcs] at parent dead
        by_cases self : child = p
        · rw [self, if_neg (steady.parents p)] at parent
          exact .inr (.inr ⟨rfl, by simp [exitSection, Cond.chan, parent]⟩)
        · rw [if_neg self] at dead
          by_cases passed : (s.data.procs child).parent = some p
          · rw [if_pos passed] at parent
            cases parent
            refine .inr (.inr ⟨rfl, ?_⟩)
            simp only [exitSection, Cond.chan, Bool.or_eq_true, decide_eq_true_eq, Bool.and_eq_true]
            exact .inr ⟨trivial, child, passed, dead⟩
          · rw [if_neg passed] at parent
            exact .inl ⟨child, parent, dead⟩
      | _ => exact .inl holds
    | kill target =>
      cases is
      cases goes
      refine advance at_ rfl (fun _ c _ holds => ?_) nofun nofun
      cases c with
      | child r =>
        obtain ⟨child, found⟩ := holds
        refine .inl (kept found ?_ ?_) <;> by_cases same : child = target <;> simp [killSection, Kernel.setProc, same]
      | _ => exact .inl holds
    | fork =>
      cases is
      cases goes
      refine @forkSection_ensures (Advance code discipline s (.proc p) fun _ _ => false) s.data p
        .user (fun np _ => ?_) (advance_same at_ rfl nofun nofun)
      refine advance at_ rfl (fun _ c _ holds => ?_) nofun nofun
      cases c with
      | child r =>
        obtain ⟨child, found⟩ := holds
        have other : child ≠ np := by
          rintro rfl
          simp [IsZombieChild, forkRun, Kernel.setProc] at found
        refine .inl (kept found ?_ ?_) <;> simp [forkRun, Kernel.setProc, other]
      | _ => exact .inl holds
    | _ =>
      cases is <;> cases goes <;>
        exact calls rfl nofun fun _ owes => (Option.some.inj owes).symm

theorem calm_of_none (none : awaited agent point = none) : Monitor.Calm code agent point := fun chan lock next is => by
  obtain ⟨c, waits, _⟩ := awaited_of_sleep is
  exact absurd (none.symm.trans waits) nofun

theorem held_acquire {next : Point} (is : code agent point = .acquire lock next) :
    point.held = none ∧ next.held = some lock ∧ awaited agent next = none := by
  cases agent <;> cases point <;> cases is <;> exact ⟨rfl, rfl, rfl⟩

theorem held_release {next : Point} (is : code agent point = .release lock next) :
    point.held = some lock ∧ next.held = none ∧ awaited agent next = none ∧ point.owed = none := by
  cases agent <;> cases point <;> cases is <;> exact ⟨rfl, rfl, rfl, rfl⟩

theorem held_sleep {next : Point} (is : code agent point = .sleep chan lock next) : point.held = some lock ∧
      next.held = some lock ∧ awaited agent next = none ∧ point.owed = none := by
  cases agent <;> cases point <;> cases is <;> exact ⟨rfl, rfl, rfl, rfl⟩

theorem held_choose {next : Point} {allowed : Point → Prop} (is : code agent point = .choose allowed)
    (chosen : allowed next) : point.held = none ∧ next.held = none ∧ Monitor.Calm code agent next := by
  cases agent with
  | proc p =>
    cases point with
    | user =>
      cases is
      cases next with
      | wait => exact ⟨rfl, rfl, fun chan lock following is => by cases is⟩
      | _ => first | (cases chosen; done) | exact ⟨rfl, rfl, calm_of_none rfl⟩
    | _ => cases is <;> cases chosen
  | interrupt cpu =>
    cases point with
    | user =>
      cases is
      cases next <;> first | (cases chosen; done) | exact ⟨rfl, rfl, calm_of_none rfl⟩
    | _ => cases is <;> cases chosen

theorem wait_of_dozes (is : code agent (s.point agent) = .atomic effect chan) (stops : (effect s.data).next = none) :
    ∃ p, agent = .proc p ∧ s.point agent = .wait ∧ effect = waitSection p := by
  generalize s.point agent = point at is
  cases agent with
  | proc p => cases point <;> cases is <;> first | cases stops | exact ⟨p, rfl, rfl, rfl⟩
  | interrupt cpu => cases point <;> cases is <;> cases stops

theorem obeys : Obeys code discipline fun s agent => Steady s ∧ ReadersAwake s agent where
  acquire agent point lock next is := by
    obtain ⟨before, after, none⟩ := held_acquire is
    exact ⟨before, after, calm_of_none none⟩
  release agent point lock next is := by
    obtain ⟨before, after, none, clear⟩ := held_release is
    exact ⟨before, after, calm_of_none none, fun chan owes => absurd (clear.symm.trans owes) nofun⟩
  sleep agent point chan lock next is := by
    obtain ⟨before, after, none, clear⟩ := held_sleep is
    exact ⟨before, after, calm_of_none none, fun chan owes => absurd (clear.symm.trans owes) nofun⟩
  choose agent point allowed next is chosen := held_choose is chosen
  access s agent effect allowed is := by
    cases agent with
    | proc p =>
      have ensures := advance_process allowed.1 allowed.2 rfl is
      rw [show procCode p _ = _ from is] at ensures
      exact ensures
    | interrupt cpu =>
      have ensures := advance_interrupt rfl is
      rw [show interruptCode _ = _ from is] at ensures
      exact ensures
  goes s agent effect chan next allowed is goes := advance_section allowed.1 rfl is goes
  dozes s agent effect chan allowed is stops := by
    obtain ⟨p, rfl, at_, rfl⟩ := wait_of_dozes is stops
    rcases waitSection_cases p s.data with ⟨q, _, section_⟩ | ⟨noZombie, data, _, _⟩
    · rw [section_] at stops
      cases stops
    · rw [data, at_]
      refine ⟨rfl, ⟨fun _ _ _ _ _ _ waits => .inl waits, fun _ _ _ _ _ waits => .inl waits⟩, ?_⟩
      rintro ⟨c, waits, holds⟩
      cases waits
      obtain ⟨child, zombie⟩ := holds
      exact noZombie child zombie

end Obeys

end Xv6Dedup.Sleeping
