import Xv6Dedup.Base.Monitor
import Xv6Dedup.Base.Ring
import Xv6Dedup.Process.Table

/-!
# The users of `sleep` and `wakeup`

Every function of the kernel that sleeps or wakes, statement by statement where
another thread may come in between: `begin_trans` and `commit_trans`, `ilock`,
`iunlock` and `iput`, `bget` and `brelse`, `iderw` and `ideintr`, `pipewrite`,
`piperead` and `pipeclose`, `wait`, `exit` and `kill`, `consoleread` and
`consoleintr`, `sys_sleep` and the clock. What lies between two operations on
locks, under one lock, is one access. Sections under `ptable.lock` alone are
atomic. System calls go through these functions in any order: a process outside
them may call any of them with any argument, and `consoleread` is its part between
`iunlock` and `ilock`.

`iget` is here because it clears `I_BUSY` of an entry it recycles, and `fork`
because it makes the children that `wait` waits for. Nobody looks at an `EMBRYO`,
so `allocproc` and the stores of `fork` are one section, and a `fork` that runs out
of memory does nothing.
-/

set_option autoImplicit false

namespace Xv6Dedup.Sleeping

open Function Monitor
abbrev Slot : Type := Process.Slot

abbrev NBUF : Nat := 10
abbrev PIPESIZE : Nat := 512
abbrev INPUT_BUF : Nat := 128

/-- A process, or an interrupt handler on some processor. -/
inductive Agent where
  | proc (p : Slot)
  | interrupt (cpu : Nat)
  deriving DecidableEq

inductive Lock where
  | log
  | icache
  | bcache
  | ide
  | input
  | ticks
  | pipe (q : Nat)
  deriving DecidableEq

inductive Chan where
  | proc (p : Slot)
  | log
  | inode (i : Nat)
  | buf (b : Fin NBUF)
  | input
  | ticks
  | nread (q : Nat)
  | nwrite (q : Nat)
  deriving DecidableEq

/-! ## Shared data -/

/-- `alive` stands for `SLEEPING`, `RUNNABLE` and `RUNNING`. -/
inductive Life where
  | unused
  | alive
  | zombie
  deriving DecidableEq

structure Proc where
  life : Life := .unused
  parent : Option Slot := none
  killed : Bool := false

/-- An entry of the inode cache: `I_BUSY`, and how many references each process has
to it, of its own or by its open files. `ip->ref` is 0 when they are all 0. -/
structure Inode where
  busy : Bool := false
  refs : Slot → Nat := fun _ => 0

structure Buf where
  busy : Bool := false
  valid : Bool := false
  dirty : Bool := false
  /-- The device and sector of the block. -/
  sector : Option (Nat × Nat) := none

/-- The arguments of `pipewrite`. -/
structure Write where
  pipe : Nat := 0
  addr : Nat → Byte := fun _ => 0
  n : Int := 0

def Write.bytes (call : Write) : List Byte := (List.range call.n.toNat).map call.addr

/-- `stored` and `delivered` are the bytes that have gone in and out; a byte is
stored under the process and the number of its call of `pipewrite`. -/
structure Pipe where
  data : Nat → Byte := fun _ => 0
  nread : BitVec 32 := 0
  nwrite : BitVec 32 := 0
  readopen : Bool := true
  writeopen : Bool := true
  stored : List ((Slot × Nat) × Byte) := []
  delivered : List Byte := []

structure Input where
  buf : Nat → Byte := fun _ => 0
  r : BitVec 32 := 0
  w : BitVec 32 := 0
  e : BitVec 32 := 0

structure Kernel where
  procs : Slot → Proc := fun _ => {}
  logBusy : Bool := false
  inodes : Nat → Inode := fun _ => {}
  bufs : Fin NBUF → Buf := fun _ => {}
  /-- The buffers along `next` from `bcache.head`. -/
  order : List (Fin NBUF) := (List.finRange NBUF).reverse
  idequeue : List (Fin NBUF) := []
  pipes : Nat → Pipe := fun _ => {}
  input : Input := {}
  ticks : BitVec 32 := 0
  /-- The calls of `pipewrite` each process has made, numbered from 1. -/
  started : Slot → Nat := fun _ => 0
  calls : Slot → Nat → Write := fun _ _ => {}

namespace Kernel

variable (k : Kernel)

def setProc (p : Slot) (proc : Proc) : Kernel :=
  { k with procs := update k.procs p proc }

def setInode (i : Nat) (inode : Inode) : Kernel :=
  { k with inodes := update k.inodes i inode }

def setBuf (b : Fin NBUF) (buf : Buf) : Kernel :=
  { k with bufs := update k.bufs b buf }

def setPipe (q : Nat) (pipe : Pipe) : Kernel :=
  { k with pipes := update k.pipes q pipe }

end Kernel

namespace Pipe

def ring (pipe : Pipe) : Ring Byte 32 := ⟨pipe.data, pipe.nread, pipe.nwrite⟩

def full (pipe : Pipe) : Prop := pipe.nwrite = pipe.nread + BitVec.ofNat 32 PIPESIZE

instance (pipe : Pipe) : Decidable pipe.full :=
  inferInstanceAs (Decidable (pipe.nwrite = pipe.nread + BitVec.ofNat 32 PIPESIZE))

def empty (pipe : Pipe) : Prop := pipe.nread = pipe.nwrite

instance (pipe : Pipe) : Decidable pipe.empty :=
  inferInstanceAs (Decidable (pipe.nread = pipe.nwrite))

/-- `p->data[p->nwrite++ % PIPESIZE] = byte`. -/
def store (pipe : Pipe) (call : Slot × Nat) (byte : Byte) : Pipe :=
  { pipe with
    data := update pipe.data (pipe.nwrite.toNat % PIPESIZE) byte
    nwrite := pipe.nwrite + 1
    stored := pipe.stored ++ [(call, byte)] }

/-- `p->data[p->nread++ % PIPESIZE]`. -/
def take (pipe : Pipe) : Pipe :=
  { pipe with
    nread := pipe.nread + 1
    delivered := pipe.delivered ++ [pipe.data (pipe.nread.toNat % PIPESIZE)] }

def close (writable : Bool) (pipe : Pipe) : Pipe :=
  if writable then { pipe with writeopen := false } else { pipe with readopen := false }

end Pipe

/-! ## Points -/

/-- The name of a point is the function and what it does next. -/
inductive Point where
  /-- Outside these functions. -/
  | user
  /-- A slot without a process, or after `exit`. -/
  | gone
  /-- After a panic, with the lock that was held. -/
  | panicked (held : Option Lock)
  | beginEnter
  | beginTest
  | beginSleep
  | beginLeave
  | commitEnter
  | commitClear
  | commitWake
  | commitLeave
  | igetEnter (i : Nat)
  | igetTake (i : Nat)
  | icacheLeave
  | forget (i : Nat)
  | ilockCheck (i : Nat)
  | ilockEnter (i : Nat)
  | ilockTest (i : Nat)
  | ilockSleep (i : Nat)
  | iunlockCheck (i : Nat)
  | iunlockEnter (i : Nat)
  | iunlockClear (i : Nat)
  | iunlockWake (i : Nat)
  /-- `frees` says whether `iput` finds the last reference to an inode without links. -/
  | iputEnter (i : Nat) (frees : Bool)
  | iputTest (i : Nat) (frees : Bool)
  | iputTrunc (i : Nat)
  | iputAgain (i : Nat)
  | iputClear (i : Nat)
  | iputWake (i : Nat)
  | iputDrop (i : Nat)
  | bgetEnter (sector : Nat × Nat)
  | bgetSearch (sector : Nat × Nat)
  | bgetSleep (sector : Nat × Nat) (b : Fin NBUF)
  | bcacheLeave
  | brelseCheck (b : Fin NBUF)
  | brelseEnter (b : Fin NBUF)
  | brelseClear (b : Fin NBUF)
  | brelseWake (b : Fin NBUF)
  /-- `bwrite` and `log_write` set `B_DIRTY`. -/
  | dirty (b : Fin NBUF)
  | iderwCheck (b : Fin NBUF)
  | iderwEnter (b : Fin NBUF)
  | iderwQueue (b : Fin NBUF)
  | iderwTest (b : Fin NBUF)
  | iderwSleep (b : Fin NBUF)
  | ideLeave
  | ideintrEnter
  | ideintrTake
  | ideintrWake (b : Fin NBUF)
  | writeEnter (call : Write)
  | writeStart (call : Write)
  | writeFill (call : Write) (i : Nat)
  | writeFull (call : Write) (i : Nat)
  | writeSleep (call : Write) (i : Nat)
  | writeWake (call : Write)
  | pipeLeave (q : Nat)
  | readEnter (q : Nat) (n : Int)
  | readTest (q : Nat) (n : Int)
  | readSleep (q : Nat) (n : Int)
  | readTake (q : Nat) (n : Int) (i : Nat)
  | readWake (q : Nat)
  | closeEnter (q : Nat) (writable : Bool)
  | closeSet (q : Nat) (writable : Bool)
  | closeWake (q : Nat) (writable : Bool)
  | consoleEnter (n : Int)
  | consoleTest (target n : Int)
  | consoleSleep (target n : Int)
  | inputLeave
  | consoleintrEnter (typed : List Byte)
  | consoleintrPut (typed : List Byte)
  | consoleintrWake (typed : List Byte)
  | sleepEnter (n : BitVec 32)
  | sleepStart (n : BitVec 32)
  | sleepTest (n ticks0 : BitVec 32)
  | sleepSleep (n ticks0 : BitVec 32)
  | ticksLeave
  | clockEnter
  | clockAdd
  | clockWake
  | wait
  | exit
  | exitLocked
  | kill (target : Slot)
  | fork

def Point.isCall : Point → Bool
  | .beginEnter | .commitEnter | .igetEnter _ | .forget _ | .ilockCheck _ | .iunlockCheck _
  | .iputEnter _ _ | .bgetEnter _ | .brelseCheck _ | .dirty _ | .iderwCheck _ | .writeEnter _
  | .readEnter _ _ | .closeEnter _ _ | .consoleEnter _ | .sleepEnter _ | .wait | .exit | .kill _
  | .fork => true
  | _ => false

def Point.isInterrupt : Point → Bool
  | .ideintrEnter | .consoleintrEnter _ | .clockEnter => true
  | _ => false

/-! ## Sections under `ptable.lock` -/

/-- The process exits: its children go to `initproc`. -/
def exitProcs (p : Slot) (procs : Slot → Proc) : Slot → Proc := fun q =>
  { procs q with
    parent := if (procs q).parent = some p then some initproc else (procs q).parent
    life := if q = p then .zombie else (procs q).life }

def IsZombieChild (procs : Slot → Proc) (p q : Slot) : Prop :=
  (procs q).parent = some p ∧ (procs q).life = .zombie

instance (procs : Slot → Proc) (p q : Slot) : Decidable (IsZombieChild procs p q) :=
  inferInstanceAs (Decidable (_ ∧ _))

def exitSection (p : Slot) (k : Kernel) : Section Agent Chan Kernel Point where
  data := { k with procs := exitProcs p k.procs }
  wakes _ chan := (k.procs p).parent.map .proc = some chan ||
    chan = .proc initproc && decide (∃ q, IsZombieChild k.procs p q)
  next := some .gone

def waitSection (p : Slot) (k : Kernel) : Section Agent Chan Kernel Point :=
  match Process.slots.find? fun q => IsZombieChild k.procs p q with
  | some q => { data := k.setProc q {}, wakes := fun _ _ => false, next := some .user }
  | none => {
    data := k
    wakes := fun _ _ => false
    next :=
      if (∃ q, (k.procs q).parent = some p) ∧ (k.procs p).killed = false then none
      else some .user }

def killSection (target : Slot) (k : Kernel) : Section Agent Chan Kernel Point where
  data := k.setProc target { k.procs target with killed := true }
  wakes agent _ := agent = .proc target
  next := some .user

/-- The child gets its parent, its references and its state. -/
def forkRun (p np : Slot) (k : Kernel) : Kernel :=
  { k.setProc np { k.procs np with parent := some p, life := .alive } with
    inodes := fun i => { k.inodes i with
      refs := update (k.inodes i).refs np ((k.inodes i).refs p) } }

def forkSection (p : Slot) (k : Kernel) : Section Agent Chan Kernel Point where
  data := match Process.slots.find? fun np => (k.procs np).life = .unused with
    | some np => forkRun p np k
    | none => k
  wakes _ _ := false
  next := some .user

/-! ## Accesses -/

def bgetSearch (sector : Nat × Nat) (k : Kernel) : Kernel × Point :=
  match k.order.find? fun b => (k.bufs b).sector = some sector with
  | some b =>
    if (k.bufs b).busy then (k, .bgetSleep sector b)
    else (k.setBuf b { k.bufs b with busy := true }, .bcacheLeave)
  | none =>
    match k.order.reverse.find? fun b => !(k.bufs b).busy && !(k.bufs b).dirty with
    | some b =>
      (k.setBuf b { busy := true, valid := false, dirty := false, sector := some sector }, .bcacheLeave)
    | none => (k, .panicked (some .bcache))

def ideintrTake (k : Kernel) : Kernel × Point :=
  match k.idequeue with
  | [] => (k, .ideLeave)
  | b :: rest =>
    ({ k.setBuf b { k.bufs b with valid := true, dirty := false } with idequeue := rest }, .ideintrWake b)

def writeStart (p : Slot) (call : Write) (k : Kernel) : Kernel :=
  { k with
    started := update k.started p (k.started p + 1)
    calls := update k.calls p (update (k.calls p) (k.started p + 1) call) }

def writeFill (p : Slot) (call : Write) (i : Nat) (k : Kernel) : Kernel × Point :=
  if (i : Int) < call.n then
    if (k.pipes call.pipe).full then
      if (k.pipes call.pipe).readopen = false ∨ (k.procs p).killed then (k, .pipeLeave call.pipe)
      else (k, .writeFull call i)
    else
      (k.setPipe call.pipe ((k.pipes call.pipe).store (p, k.started p) (call.addr i)), .writeFill call (i + 1))
  else (k, .writeWake call)

def readTest (p : Slot) (q : Nat) (n : Int) (k : Kernel) : Kernel × Point :=
  if (k.pipes q).empty ∧ (k.pipes q).writeopen then
    if (k.procs p).killed then (k, .pipeLeave q) else (k, .readSleep q n)
  else (k, .readTake q n 0)

def readTake (q : Nat) (n : Int) (i : Nat) (k : Kernel) : Kernel × Point :=
  if (i : Int) < n ∧ ¬ (k.pipes q).empty then (k.setPipe q (k.pipes q).take, .readTake q n (i + 1))
  else (k, .readWake q)

/-- `C('D')`, and the newline. -/
def ctrlD : Byte := 4
def newline : Byte := 10

def consoleTest (p : Slot) (target n : Int) (k : Kernel) : Kernel × Point :=
  if n ≤ 0 then (k, .inputLeave)
  else if k.input.r = k.input.w then
    if (k.procs p).killed then (k, .inputLeave) else (k, .consoleSleep target n)
  else
    let c := k.input.buf (k.input.r.toNat % INPUT_BUF)
    if c = ctrlD then
      -- the end of file is kept for the next call when bytes have been read
      if n < target then (k, .inputLeave)
      else ({ k with input := { k.input with r := k.input.r + 1 } }, .inputLeave)
    else
      ({ k with input := { k.input with r := k.input.r + 1 } },
        if c = newline then .inputLeave else .consoleTest target (n - 1))

/-- The line is killed up to the newline before it; `input.e - input.w` is fuel
enough. -/
def killLine (input : Input) : Nat → Input
  | 0 => input
  | fuel + 1 =>
    if input.e ≠ input.w ∧ input.buf ((input.e - 1).toNat % INPUT_BUF) ≠ newline then
      killLine { input with e := input.e - 1 } fuel
    else input

/-- One character typed; `true` when a reader is to be woken. -/
def typeChar (c : Byte) (input : Input) : Input × Bool :=
  if c = 16 then (input, false)
  else if c = 21 then (killLine input (input.e - input.w).toNat, false)
  else if c = 8 ∨ c = 127 then
    (if input.e ≠ input.w then { input with e := input.e - 1 } else input, false)
  else if c ≠ 0 ∧ (input.e - input.r).toNat < INPUT_BUF then
    let c := if c = 13 then newline else c
    let input := { input with
      buf := update input.buf (input.e.toNat % INPUT_BUF) c
      e := input.e + 1 }
    if c = newline ∨ c = ctrlD ∨ input.e = input.r + BitVec.ofNat 32 INPUT_BUF then
      ({ input with w := input.e }, true)
    else (input, false)
  else (input, false)

def consoleintrPut (k : Kernel) : List Byte → Kernel × Point
  | [] => (k, .inputLeave)
  | c :: rest =>
    ({ k with input := (typeChar c k.input).1 },
      if (typeChar c k.input).2 then .consoleintrWake rest else .consoleintrPut rest)

def sleepTest (p : Slot) (n ticks0 : BitVec 32) (k : Kernel) : Kernel × Point :=
  if (k.ticks - ticks0).toNat < n.toNat then
    if (k.procs p).killed then (k, .ticksLeave) else (k, .sleepSleep n ticks0)
  else (k, .ticksLeave)

def dropRef (p : Slot) (i : Nat) (k : Kernel) : Kernel :=
  k.setInode i { k.inodes i with
    refs := update (k.inodes i).refs p ((k.inodes i).refs p - 1) }

/-! ## The code -/

def procCode (p : Slot) : Point → Instr Agent Lock Chan Kernel Point
  | .user => .choose fun next => next.isCall = true
  | .gone => .access fun k => (k, if (k.procs p).life = .alive then .user else .gone)
  -- log.c
  | .beginEnter => .acquire .log .beginTest
  | .beginTest => .access fun k =>
    if k.logBusy then (k, .beginSleep) else ({ k with logBusy := true }, .beginLeave)
  | .beginSleep => .sleep .log .log .beginTest
  | .beginLeave => .release .log .user
  | .commitEnter => .acquire .log .commitClear
  | .commitClear => .access fun k => ({ k with logBusy := false }, .commitWake)
  | .commitWake => .wakeup .log .commitLeave
  | .commitLeave => .release .log .user
  -- fs.c
  | .igetEnter i => .acquire .icache (.igetTake i)
  | .igetTake i => .access fun k =>
    (k.setInode i {
      busy := if ∃ q, 0 < (k.inodes i).refs q then (k.inodes i).busy else false
      refs := update (k.inodes i).refs p ((k.inodes i).refs p + 1) }, .icacheLeave)
  | .icacheLeave => .release .icache .user
  | .forget i => .access fun k => (dropRef p i k, .user)
  -- every caller of `ilock` and `iunlock` has a reference of its own, so `ip->ref` is not 0
  | .ilockCheck i => .access fun k =>
    (k, if 0 < (k.inodes i).refs p then .ilockEnter i else .panicked none)
  | .ilockEnter i => .acquire .icache (.ilockTest i)
  | .ilockTest i => .access fun k =>
    if (k.inodes i).busy then (k, .ilockSleep i)
    else (k.setInode i { k.inodes i with busy := true }, .icacheLeave)
  | .ilockSleep i => .sleep (.inode i) .icache (.ilockTest i)
  | .iunlockCheck i => .access fun k =>
    (k, if (k.inodes i).busy = true ∧ 0 < (k.inodes i).refs p then .iunlockEnter i else .panicked none)
  | .iunlockEnter i => .acquire .icache (.iunlockClear i)
  | .iunlockClear i => .access fun k =>
    (k.setInode i { k.inodes i with busy := false }, .iunlockWake i)
  | .iunlockWake i => .wakeup (.inode i) .icacheLeave
  | .iputEnter i frees => .acquire .icache (.iputTest i frees)
  | .iputTest i frees => .access fun k =>
    if frees then
      if (k.inodes i).busy then (k, .panicked (some .icache))
      else (k.setInode i { k.inodes i with busy := true }, .iputTrunc i)
    else (k, .iputDrop i)
  | .iputTrunc i => .release .icache (.iputAgain i)
  | .iputAgain i => .acquire .icache (.iputClear i)
  | .iputClear i => .access fun k =>
    (k.setInode i { k.inodes i with busy := false }, .iputWake i)
  | .iputWake i => .wakeup (.inode i) (.iputDrop i)
  | .iputDrop i => .access fun k => (dropRef p i k, .icacheLeave)
  -- bio.c
  | .bgetEnter sector => .acquire .bcache (.bgetSearch sector)
  | .bgetSearch sector => .access (bgetSearch sector)
  | .bgetSleep sector b => .sleep (.buf b) .bcache (.bgetSearch sector)
  | .bcacheLeave => .release .bcache .user
  | .brelseCheck b => .access fun k =>
    (k, if (k.bufs b).busy then .brelseEnter b else .panicked none)
  | .brelseEnter b => .acquire .bcache (.brelseClear b)
  | .brelseClear b => .access fun k =>
    ({ k.setBuf b { k.bufs b with busy := false } with order := b :: k.order.erase b }, .brelseWake b)
  | .brelseWake b => .wakeup (.buf b) .bcacheLeave
  | .dirty b => .access fun k => (k.setBuf b { k.bufs b with dirty := true }, .user)
  -- ide.c
  | .iderwCheck b => .access fun k =>
    (k, if (k.bufs b).busy = true ∧ ¬ ((k.bufs b).valid = true ∧ (k.bufs b).dirty = false)
      then .iderwEnter b else .panicked none)
  | .iderwEnter b => .acquire .ide (.iderwQueue b)
  | .iderwQueue b => .access fun k => ({ k with idequeue := k.idequeue ++ [b] }, .iderwTest b)
  | .iderwTest b => .access fun k =>
    (k, if (k.bufs b).valid = true ∧ (k.bufs b).dirty = false then .ideLeave else .iderwSleep b)
  | .iderwSleep b => .sleep (.buf b) .ide (.iderwTest b)
  | .ideLeave => .release .ide .user
  -- pipe.c
  | .writeEnter call => .acquire (.pipe call.pipe) (.writeStart call)
  | .writeStart call => .access fun k => (writeStart p call k, .writeFill call 0)
  | .writeFill call i => .access (writeFill p call i)
  | .writeFull call i => .wakeup (.nread call.pipe) (.writeSleep call i)
  | .writeSleep call i => .sleep (.nwrite call.pipe) (.pipe call.pipe) (.writeFill call i)
  | .writeWake call => .wakeup (.nread call.pipe) (.pipeLeave call.pipe)
  | .pipeLeave q => .release (.pipe q) .user
  | .readEnter q n => .acquire (.pipe q) (.readTest q n)
  | .readTest q n => .access (readTest p q n)
  | .readSleep q n => .sleep (.nread q) (.pipe q) (.readTest q n)
  | .readTake q n i => .access (readTake q n i)
  | .readWake q => .wakeup (.nwrite q) (.pipeLeave q)
  | .closeEnter q writable => .acquire (.pipe q) (.closeSet q writable)
  | .closeSet q writable => .access fun k =>
    (k.setPipe q ((k.pipes q).close writable), .closeWake q writable)
  | .closeWake q writable => .wakeup (if writable then .nread q else .nwrite q) (.pipeLeave q)
  -- console.c
  | .consoleEnter n => .acquire .input (.consoleTest n n)
  | .consoleTest target n => .access (consoleTest p target n)
  | .consoleSleep target n => .sleep .input .input (.consoleTest target n)
  | .inputLeave => .release .input .user
  -- sysproc.c
  | .sleepEnter n => .acquire .ticks (.sleepStart n)
  | .sleepStart n => .access fun k => (k, .sleepTest n k.ticks)
  | .sleepTest n ticks0 => .access (sleepTest p n ticks0)
  | .sleepSleep n ticks0 => .sleep .ticks .ticks (.sleepTest n ticks0)
  | .ticksLeave => .release .ticks .user
  -- proc.c
  | .wait => .atomic (waitSection p) (.proc p)
  | .exit => .access fun k => (k, if p = initproc then .panicked none else .exitLocked)
  | .exitLocked => .atomic (exitSection p) (.proc p)
  | .kill target => .atomic (killSection target) (.proc p)
  | .fork => .atomic (forkSection p) (.proc p)
  | _ => .choose fun _ => False

def interruptCode : Point → Instr Agent Lock Chan Kernel Point
  | .user => .choose fun next => next.isInterrupt = true
  | .ideintrEnter => .acquire .ide .ideintrTake
  | .ideintrTake => .access ideintrTake
  | .ideintrWake b => .wakeup (.buf b) .ideLeave
  | .ideLeave => .release .ide .user
  | .consoleintrEnter typed => .acquire .input (.consoleintrPut typed)
  | .consoleintrPut typed => .access fun k => consoleintrPut k typed
  | .consoleintrWake typed => .wakeup .input (.consoleintrPut typed)
  | .inputLeave => .release .input .user
  | .clockEnter => .acquire .ticks .clockAdd
  | .clockAdd => .access fun k => ({ k with ticks := k.ticks + 1 }, .clockWake)
  | .clockWake => .wakeup .ticks .ticksLeave
  | .ticksLeave => .release .ticks .user
  | _ => .choose fun _ => False

def code : Code Agent Lock Chan Kernel Point
  | .proc p => procCode p
  | .interrupt _ => interruptCode

abbrev System : Type := Monitor.State Agent Lock Kernel Point

/-- After `userinit`: `initproc` runs and every other slot is unused. -/
def boot : System where
  data := { procs := fun p => if p = initproc then { life := .alive } else {} }
  owner _ := none
  table := none
  point
    | .proc p => if p = initproc then .user else .gone
    | .interrupt _ => .user
  phase _ := .ready

end Xv6Dedup.Sleeping
