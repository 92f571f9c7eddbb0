import Xv6Dedup.Base.Bytes

/-!
# The disk driver's queue

The head of `idequeue` is the request the device works on. A call of `iderw` up
to its `sleep` and a run of `ideintr` hold `idelock` and are one step each. The
device's work on a command is part of the interrupt's step: nothing else reads
or writes the disk. Between its calls the owner of a buffer changes it freely.
-/

set_option autoImplicit false

namespace Xv6Dedup.Ide

open Function

abbrev Disks := Nat → Nat → Bytes 512

structure Buf where
  dev : Nat
  sector : Nat
  busy : Bool := true
  valid : Bool := false
  dirty : Bool := false
  data : Bytes 512

inductive Command where
  | read (drive lba : Nat)
  | write (drive lba : Nat) (data : Bytes 512)

structure State where
  disk : Disks
  bufs : Nat → Buf
  havedisk1 : Bool := true
  idequeue : List Nat := []
  /-- What the device has been started on. -/
  command : Option Command := none
  /-- The buffers with a call of `iderw` that has not returned. -/
  calls : Nat → Bool := fun _ => false

/-- The ports take 28 bits of the sector and one bit of the device. -/
def Buf.command (b : Buf) : Command :=
  if b.dirty then .write (b.dev % 2) (b.sector % 2 ^ 28) b.data
  else .read (b.dev % 2) (b.sector % 2 ^ 28)

def idestart (b : Nat) (s : State) : State := { s with command := some (s.bufs b).command }

/-- The disks and the data register after a command; a write that fails leaves `junk`. -/
def Command.execute (ok : Bool) (junk : Bytes 512) (disk : Disks) : Command → Disks × Bytes 512
  | .read drive lba => (disk, disk drive lba)
  | .write drive lba data => (update disk drive (update (disk drive) lba (if ok then data else junk)), junk)

/-- `ok`: `idewait(1)` finds no error. -/
def ideintr (ok : Bool) (register : Bytes 512) (s : State) : State :=
  match s.idequeue with
  | [] => s
  | b :: idequeue =>
    let data := if (s.bufs b).dirty = false ∧ ok then register else (s.bufs b).data
    let s := { s with
      idequeue, command := none, bufs := update s.bufs b { s.bufs b with data, valid := true, dirty := false } }
    match idequeue with
    | [] => s
    | next :: _ => idestart next s

def iderwPanic (havedisk1 : Bool) (b : Buf) : Option String :=
  if b.busy = false then some "iderw: buf not busy"
  else if b.valid ∧ b.dirty = false then some "iderw: nothing to do"
  else if b.dev ≠ 0 ∧ havedisk1 = false then some "iderw: ide disk 1 not present"
  else none

/-- `iderw` from `acquire` to its loop. -/
def iderw (b : Nat) (s : State) : State :=
  let s := { s with idequeue := s.idequeue ++ [b], calls := update s.calls b true }
  if s.idequeue.head? = some b then idestart b s else s

/-- `iderw` of `memide.c`, for the disk `unit` (1 there) of `disksize` sectors. -/
def memIderw (unit disksize : Nat) (memdisk : Nat → Bytes 512) (b : Buf) :
    Except String ((Nat → Bytes 512) × Buf) :=
  if b.busy = false then .error "iderw: buf not busy"
  else if b.valid ∧ b.dirty = false then .error "iderw: nothing to do"
  else if b.dev ≠ unit then .error "iderw: request not for disk 1"
  else if disksize ≤ b.sector then .error "iderw: sector out of range"
  else if b.dirty then .ok (update memdisk b.sector b.data, { b with dirty := false, valid := true })
  else .ok (memdisk, { b with data := memdisk b.sector, valid := true })

inductive Event where
  | call (b : Nat)
  | intr (ok : Bool) (served : Option Nat)
  | returns (b : Nat)
  | owner (b : Nat) (buf : Buf)

inductive Step (s : State) : Event → State → Prop
  | call {b : Nat} (distinct : s.calls b = false) (passes : iderwPanic s.havedisk1 (s.bufs b) = none) :
      Step s (.call b) (iderw b s)
  | intr {ok : Bool} {command : Command} (junk : Bytes 512) (started : s.command = some command) :
      Step s (.intr ok s.idequeue.head?) (ideintr ok (command.execute ok junk s.disk).2
        { s with disk := (command.execute ok junk s.disk).1 })
  | returns {b : Nat} (called : s.calls b = true) (done : (s.bufs b).valid = true ∧ (s.bufs b).dirty = false) :
      Step s (.returns b) { s with calls := update s.calls b false }
  | owner {b : Nat} (buf : Buf) (between : s.calls b = false) :
      Step s (.owner b buf) { s with bufs := update s.bufs b buf }

inductive Runs (Allowed : State → Event → Prop) (start : State) : List Event → State → Prop
  | refl : Runs Allowed start [] start
  | snoc {trace : List Event} {event : Event} {s next : State} (run : Runs Allowed start trace s)
      (allowed : Allowed s event) (step : Step s event next) : Runs Allowed start (trace ++ [event]) next

def Booted (s : State) : Prop := s.idequeue = [] ∧ s.command = none

structure Mem where
  disk : Disks
  bufs : Nat → Buf

/-- The same requests with `memide.c`, each served when its interrupt comes. -/
def Mem.step (m : Mem) : Event → Option Mem
  | .intr _ (some b) =>
    match memIderw (m.bufs b).dev (2 ^ 28) (m.disk (m.bufs b).dev) (m.bufs b) with
    | .ok (memdisk, buf) => some ⟨update m.disk (m.bufs b).dev memdisk, update m.bufs b buf⟩
    | .error _ => none
  | .owner b buf => some { m with bufs := update m.bufs b buf }
  | _ => some m

def Same (memory disk : Disks) : Prop := ∀ dev < 2, ∀ sector < 2 ^ 28, memory dev sector = disk dev sector

def arrived (trace : List Event) : List Nat :=
  trace.filterMap fun event => match event with | .call b => some b | _ => none

def served (trace : List Event) : List Nat :=
  trace.filterMap fun event => match event with | .intr _ b => b | _ => none

/-- The buffer holds what its sector holds. -/
def State.Synced (s : State) (b : Nat) : Prop := (s.bufs b).data = s.disk (s.bufs b).dev (s.bufs b).sector

structure Correct (start : State) (trace : List Event) (s : State) : Prop where
  order : arrived trace = served trace ++ s.idequeue
  once : s.idequeue.Nodup
  pending : ∀ b ∈ s.idequeue, s.calls b = true ∧ ¬ ((s.bufs b).valid = true ∧ (s.bufs b).dirty = false)
  /-- `ideintr` has just set `B_VALID`. -/
  synced : ∀ before ok b, trace = before ++ [.intr ok (some b)] → s.Synced b
  refines : ∃ m, trace.foldlM Mem.step ⟨start.disk, start.bufs⟩ = some m ∧ m.bufs = s.bufs ∧ Same m.disk s.disk

/-- Every command succeeds, and requests are for sectors the ports can name. -/
def Works (s : State) : Event → Prop
  | .call b => (s.bufs b).dev < 2 ∧ (s.bufs b).sector < 2 ^ 28
  | .intr ok _ => ok = true
  | _ => True

/-! ## The invariant -/

structure Buf.Request (b : Buf) : Prop where
  busy : b.busy = true
  needed : ¬ (b.valid = true ∧ b.dirty = false)
  dev : b.dev < 2
  sector : b.sector < 2 ^ 28

/-- What a served request leaves on the disks. -/
def Buf.leaves (b : Buf) (disk : Disks) : Disks :=
  if b.dirty then update disk b.dev (update (disk b.dev) b.sector b.data) else disk

/-- What it leaves in the buffer. -/
def Buf.holds (b : Buf) (disk : Disks) : Buf :=
  { b with data := if b.dirty then b.data else disk b.dev b.sector, valid := true, dirty := false }

theorem leaves_at (b : Buf) (disk : Disks) : b.leaves disk b.dev b.sector = (b.holds disk).data := by
  cases dirty : b.dirty <;> simp [Buf.leaves, Buf.holds, dirty]

variable {m : Mem} {s next : State} {b : Nat}

theorem mem_serves {ok : Bool} (request : (m.bufs b).Request) : m.step (.intr ok (some b)) =
    some ⟨(m.bufs b).leaves m.disk, update m.bufs b ((m.bufs b).holds m.disk)⟩ := by
  have inRange : ¬ 2 ^ 28 ≤ (m.bufs b).sector := Nat.not_le.mpr request.sector
  simp only [Mem.step, memIderw, request.busy, request.needed, inRange, ne_eq, not_true_eq_false, if_false,
    Bool.true_eq_false, Buf.leaves, Buf.holds]
  cases dirty : (m.bufs b).dirty with
  | true => rfl
  | false => simp

theorem execute_serves {buf : Buf} {memory disk : Disks} {junk : Bytes 512} (request : buf.Request)
    (same : Same memory disk) : Same (buf.leaves memory) (buf.command.execute true junk disk).1 ∧
      (buf.dirty = false → (buf.command.execute true junk disk).2 = memory buf.dev buf.sector) := by
  rw [Buf.command, Nat.mod_eq_of_lt request.dev, Nat.mod_eq_of_lt request.sector]
  cases dirty : buf.dirty with
  | true =>
    refine ⟨fun dev isDev sector isSector => ?_, nofun⟩
    have before := same dev isDev sector isSector
    simp only [Buf.leaves, dirty, if_true, Command.execute, update_apply]
    split <;> simp_all [update_apply]
  | false =>
    rw [Buf.leaves, dirty]
    exact ⟨same, fun _ => (same _ request.dev _ request.sector).symm⟩

structure Ready (m : Mem) (s : State) : Prop where
  bufs : m.bufs = s.bufs
  disk : Same m.disk s.disk
  once : s.idequeue.Nodup
  pending : ∀ b ∈ s.idequeue, s.calls b = true ∧ (s.bufs b).Request
  device : s.command = s.idequeue.head?.map fun b => (s.bufs b).command

theorem Ready.iderw (ready : Ready m s) (distinct : s.calls b = false)
    (passes : iderwPanic s.havedisk1 (s.bufs b) = none) (works : Works s (.call b)) :
    Ready m (iderw b s) ∧ (Ide.iderw b s).idequeue = s.idequeue ++ [b] := by
  have request : (s.bufs b).Request := by
    unfold iderwPanic at passes
    exact ⟨by grind, by grind, works.1, works.2⟩
  have fresh : b ∉ s.idequeue := fun queued => by simp [(ready.pending b queued).1] at distinct
  have called : Ide.iderw b s = { s with
      idequeue := s.idequeue ++ [b], calls := update s.calls b true
      command := (s.idequeue ++ [b]).head?.map fun b => (s.bufs b).command } := by
    rw [Ide.iderw, ready.device]
    cases queue : s.idequeue with
    | nil => simp [idestart]
    | cons head rest =>
      have isOther : head ≠ b := fun isHead => fresh (by simp [queue, isHead])
      simp [isOther]
  rw [called]
  refine ⟨⟨ready.bufs, ready.disk, ?_, fun other queued => ?_, rfl⟩, rfl⟩
  · exact List.nodup_append.mpr ⟨ready.once, by simp, by grind⟩
  · by_cases same : other = b
    · simp only [same, update_self]
      exact ⟨trivial, request⟩
    · simp only [update_of_ne same]
      exact ready.pending other (by simpa [same] using queued)

theorem Ready.ideintr {command : Command} (junk : Bytes 512) (ready : Ready m s) (started : s.command = some command) :
    let next := ideintr true (command.execute true junk s.disk).2
      { s with disk := (command.execute true junk s.disk).1 }
    ∃ b, s.idequeue = b :: next.idequeue ∧ next.Synced b ∧ ∃ m', m.step (.intr true (some b)) = some m' ∧ Ready m' next := by
  obtain ⟨b, head, rfl⟩ := Option.map_eq_some_iff.mp (ready.device.symm.trans started)
  obtain ⟨rest, queue⟩ := List.head?_eq_some_iff.mp head
  have request := (ready.pending b (by simp [queue])).2
  obtain ⟨disk, register⟩ := @execute_serves _ _ _ junk request ready.disk
  generalize (s.bufs b).command.execute true junk s.disk = done at disk register ⊢
  have served : Ide.ideintr true done.2 { s with disk := done.1 } = { s with
      disk := done.1, idequeue := rest, bufs := update s.bufs b ((s.bufs b).holds m.disk)
      command := rest.head?.map fun next => (update s.bufs b ((s.bufs b).holds m.disk) next).command } := by
    unfold Ide.ideintr
    cases dirty : (s.bufs b).dirty with
    | true => cases rest <;> simp [queue, Buf.holds, idestart, dirty]
    | false => cases rest <;> simp [queue, Buf.holds, idestart, dirty, register]
  dsimp only
  rw [served]
  have nodup := List.nodup_cons.mp (queue ▸ ready.once)
  refine ⟨b, queue, ?_, _, mem_serves (ready.bufs ▸ request), by rw [ready.bufs], ready.bufs ▸ disk,
    nodup.2, fun other queued => ?_, rfl⟩
  · simp only [State.Synced, update_self, ← leaves_at]
    exact disk _ request.dev _ request.sector
  · have isOther : other ≠ b := fun same => nodup.1 (same ▸ queued)
    simp only [update_of_ne isOther]
    exact ready.pending other (by simp [queue, queued])

theorem Ready.step {event : Event} (ready : Ready m s) (works : Works s event) (step : Step s event next) :
    (∃ m', m.step event = some m' ∧ Ready m' next) ∧ s.idequeue ++ arrived [event] = served [event] ++ next.idequeue ∧
        ∀ ok b, [event] = [.intr ok (some b)] → next.Synced b := by
  cases step with
  | call distinct passes =>
    obtain ⟨after, queue⟩ := ready.iderw distinct passes works
    exact ⟨⟨m, rfl, after⟩, queue.symm, nofun⟩
  | intr junk started =>
    obtain rfl : _ = true := works
    obtain ⟨b, queue, synced, serves⟩ := ready.ideintr junk started
    have head : s.idequeue.head? = some b := by rw [queue]; rfl
    rw [head]
    refine ⟨serves, (List.append_nil _).trans queue, fun _ _ same => ?_⟩
    cases same
    exact synced
  | @returns b called done =>
    refine ⟨⟨m, rfl, { ready with pending := fun other queued => ?_ }⟩, List.append_nil _, nofun⟩
    have request := ready.pending other queued
    have isOther : other ≠ b := fun same => request.2.needed (same ▸ done)
    simp only [update_of_ne isOther]
    exact request
  | @owner b buf between =>
    have same (other : Nat) (queued : other ∈ s.idequeue) : update s.bufs b buf other = s.bufs other :=
      update_of_ne (fun same => by simp [← same, (ready.pending other queued).1] at between) _ _
    refine ⟨⟨_, rfl, by rw [ready.bufs], ready.disk, ready.once, fun other queued => ?_, ?_⟩, List.append_nil _, nofun⟩
    · simp only [same other queued]
      exact ready.pending other queued
    · rw [ready.device]
      cases queue : s.idequeue with
      | nil => rfl
      | cons head rest => simp [same head (by simp [queue])]

theorem Runs.ready {start : State} {trace : List Event} (run : Runs Works start trace s) (booted : Booted start) :
    (∃ m, trace.foldlM Mem.step ⟨start.disk, start.bufs⟩ = some m ∧ Ready m s) ∧
      arrived trace = served trace ++ s.idequeue ∧
        ∀ before ok b, trace = before ++ [.intr ok (some b)] → s.Synced b := by
  induction run with
  | refl =>
    obtain ⟨queue, command⟩ := booted
    refine ⟨⟨_, rfl, rfl, fun _ _ _ _ => rfl, ?_, ?_, ?_⟩, queue.symm, by simp⟩ <;> simp [queue, command]
  | snoc run allowed step ih =>
    obtain ⟨⟨m, replayed, ready⟩, order, _⟩ := ih
    obtain ⟨⟨after, mirrored, next⟩, moved, synced⟩ := ready.step allowed step
    refine ⟨⟨after, by simp [List.foldlM_append, replayed, mirrored], next⟩, ?_, fun _ ok b last => ?_⟩
    · simp only [arrived, served, List.filterMap_append] at order moved ⊢
      rw [order, List.append_assoc, moved, List.append_assoc]
    · exact synced ok b (List.append_inj' last rfl).2

theorem iderw_correct {start : State} {trace : List Event} (booted : Booted start)
    (run : Runs Works start trace s) : Correct start trace s := by
  obtain ⟨⟨m, replayed, ready⟩, order, synced⟩ := run.ready booted
  refine ⟨order, ready.once, fun b queued => ?_, synced, m, replayed, ready.bufs, ready.disk⟩
  have pending := ready.pending b queued
  exact ⟨pending.1, pending.2.needed⟩

/-- Buffer 0 is for sector 0 of disk 0, whose bytes are 1. -/
def asks : State where
  disk _ _ _ := 1
  bufs _ := { dev := 0, sector := 0, data := Bytes.zero }

theorem iderw_correct_read :
    ∃ s, Runs Works asks [.call 0, .intr true (some 0)] s ∧ Correct asks [.call 0, .intr true (some 0)] s := by
  have called : Runs Works asks ([] ++ [.call 0]) _ := .snoc .refl ⟨by decide, by decide⟩ (.call rfl rfl)
  have run := called.snoc (by rfl) (.intr Bytes.zero rfl)
  exact ⟨_, run, iderw_correct ⟨rfl, rfl⟩ run⟩

/-- `ideintr` sets `B_VALID` after a read that failed. -/
theorem iderw_failed_read : ∃ s, Runs (fun _ _ => True) asks [.call 0, .intr false (some 0)] s ∧
    ¬ Correct asks [.call 0, .intr false (some 0)] s := by
  have called : Runs (fun _ _ => True) asks ([] ++ [.call 0]) _ := .snoc .refl trivial (.call rfl rfl)
  refine ⟨_, called.snoc trivial (.intr Bytes.zero rfl), fun correct => ?_⟩
  have synced := congrFun (correct.synced [.call 0] false 0 rfl) 0
  exact absurd synced (by decide)

end Xv6Dedup.Ide
