import Xv6Dedup.System.Calls

/-!
# Virtual memory

The free list of frames, page directories with their page tables, and the
calls that change the address spaces of processes. Frames and pages are
numbered, so that address `a` lies in page `a / PGSIZE`.
-/

set_option autoImplicit false

namespace Xv6Dedup.Paging

open Function Program

abbrev KERNBASE : Nat := 0x80000000
abbrev NPTENTRIES : Nat := 1024
abbrev NPDENTRIES : Nat := 1024

abbrev KERNPAGE : Nat := 0x80000

abbrev EXTPAGES : Nat := 0x100
abbrev STOPPAGE : Nat := 0xE000
abbrev DEVPAGE : Nat := 0xFE000

/-- Where the linker puts the kernel: the frame of `data` and the first frame
after `end`. -/
structure Link where
  data : Nat
  last : Nat
  above : EXTPAGES < data
  ordered : data < last
  below : last < STOPPAGE

/-- A present page table entry. -/
structure Entry where
  frame : Nat
  write : Bool
  user : Bool
  deriving DecidableEq

/-- A page directory: the frame of each page table, and the entries by page number. -/
structure Pgdir where
  table : Nat → Option Nat := fun _ => none
  entry : Nat → Option Entry := fun _ => none

structure Task where
  pgdir : Nat
  sz : Nat
  kstack : Nat
  zombie : Bool := false
  parent : Fin NPROC

structure Vm where
  link : Link
  free : List Nat
  dirs : Nat → Option Pgdir := fun _ => none
  tasks : Fin NPROC → Option Task := fun _ => none
  /-- The entries that `allocproc` has taken and that are not yet in use. -/
  embryo : Fin NPROC → Bool := fun _ => false
  /-- The pages that hold pipes. -/
  pipes : List Nat := []
  /-- The bytes of each frame. -/
  mem : Nat → Nat → Byte := fun _ _ => 0
  /-- Whether some `kalloc` has failed. -/
  starved : Bool := false
  /-- The directory, page and frame of each page that `allocuvm` has mapped. -/
  grants : List (Nat × Nat × Nat) := []
  /-- The directory, page and frame of each page that `loaduvm` has stored to. -/
  stores : List (Nat × Nat × Nat) := []

/-- The hidden part tells which calls of `kalloc` fail although there are frames. -/
abbrev VmM := Program Stop Vm (List Bool)

def panic {α : Type} (message : String) : VmM α := throw (.panic message)

/-! ## Frames -/

def kalloc : VmM (Option Nat) := do
  let fails ← remembered
  remember List.tail
  let vm ← visible
  match vm.free with
  | frame :: rest =>
    if fails.head? = some true then do
      change fun vm => { vm with starved := true }
      pure none
    else do
      change fun vm => { vm with free := rest }
      pure (some frame)
  | [] => do
    change fun vm => { vm with starved := true }
    pure none

def kfree (frame : Nat) : VmM Unit := do
  let vm ← visible
  if frame < vm.link.last ∨ STOPPAGE ≤ frame then panic "kfree"
  else change fun vm => { vm with free := frame :: vm.free }

/-! ## Page tables -/

def Vm.setDir (vm : Vm) (d : Nat) (dir : Option Pgdir) : Vm :=
  { vm with dirs := update vm.dirs d dir }

def Vm.fill (vm : Vm) (frame : Nat) (bytes : Nat → Byte) : Vm :=
  { vm with mem := update vm.mem frame bytes }

def dirAt (d : Nat) : VmM Pgdir := do
  let vm ← visible
  match vm.dirs d with
  | none => throw (.undefined "page directory")
  | some dir => pure dir

def Pgdir.addTable (dir : Pgdir) (index frame : Nat) : Pgdir where
  table := update dir.table index (some frame)
  entry page := if page / NPTENTRIES = index then none else dir.entry page

def Pgdir.setEntry (dir : Pgdir) (page : Nat) (entry : Option Entry) : Pgdir :=
  { dir with entry := update dir.entry page entry }

/-- Whether there is an entry for the page, with `alloc` in a new page table if needed. -/
def walkpgdir (d page : Nat) (alloc : Bool) : VmM Bool := do
  let dir ← dirAt d
  match dir.table (page / NPTENTRIES) with
  | some _ => pure true
  | none =>
    if alloc = false then pure false
    else do
      let pgtab ← kalloc
      match pgtab with
      | none => pure false
      | some frame => do
        change fun vm => vm.setDir d (some (dir.addTable (page / NPTENTRIES) frame))
        pure true

def mappage (d page : Nat) (entry : Entry) : VmM Bool := do
  let found ← walkpgdir d page true
  if found = false then pure false
  else do
    let dir ← dirAt d
    if (dir.entry page).isSome then panic "remap"
    else do
      change fun vm => vm.setDir d (some (dir.setEntry page (some entry)))
      pure true

/-- Map `count` pages from `page` on to frames from `frame` on. -/
def mappages (d : Nat) (write : Bool) : (count page frame : Nat) → VmM Bool
  | 0, _, _ => pure true
  | count + 1, page, frame => do
    let mapped ← mappage d page { frame := frame, write := write, user := false }
    if mapped then mappages d write count (page + 1) (frame + 1) else pure false

/-- The table `kmap`: first page, first frame, number of pages, writable. -/
def kmap (link : Link) : List (Nat × Nat × Nat × Bool) :=
  [(KERNPAGE, 0, EXTPAGES, true), (KERNPAGE + EXTPAGES, EXTPAGES, link.data - EXTPAGES, false),
   (KERNPAGE + link.data, link.data, STOPPAGE - link.data, true),
   (DEVPAGE, DEVPAGE, 0x2000, true)]

def mapKernel (d : Nat) : List (Nat × Nat × Nat × Bool) → VmM Bool
  | [] => pure true
  | (page, frame, count, write) :: rest => do
    let mapped ← mappages d write count page frame
    if mapped then mapKernel d rest else pure false

def setupkvm : VmM (Option Nat) := do
  let pgdir ← kalloc
  match pgdir with
  | none => pure none
  | some d => do
    change fun vm => vm.setDir d (some {})
    let vm ← visible
    let mapped ← mapKernel d (kmap vm.link)
    pure (if mapped then some d else none)

/-! ## User memory -/

/-- The number of the page at `PGROUNDUP(sz)`. -/
def pageUp (sz : Nat) : Nat := (sz + (PGSIZE - 1)) % 2 ^ 32 / PGSIZE

/-- The loop of `deallocuvm` from `page` on, at most `count` more rounds. -/
def deallocFrom (d oldsz : Nat) : (count page : Nat) → VmM Unit
  | 0, _ => pure ()
  | count + 1, page =>
    if oldsz ≤ page * PGSIZE then pure ()
    else do
      let found ← walkpgdir d page false
      -- without a page table the next 1024 pages are skipped
      if found = false then deallocFrom d oldsz count (page + NPTENTRIES)
      else do
        let dir ← dirAt d
        match dir.entry page with
        | none => deallocFrom d oldsz count (page + 1)
        | some entry =>
          if entry.frame = 0 then panic "kfree"
          else do
            kfree entry.frame
            change fun vm => vm.setDir d (some (dir.setEntry page none))
            deallocFrom d oldsz count (page + 1)

/-- Deallocate user pages to bring the process size from `oldsz` to `newsz`. -/
def deallocuvm (d oldsz newsz : Nat) : VmM Nat :=
  if oldsz ≤ newsz then pure oldsz
  else do
    deallocFrom d oldsz (pageUp oldsz) (pageUp newsz)
    pure newsz

/-- The loop of `allocuvm`, `count` more pages from `page` on. -/
def allocFrom (d oldsz newsz : Nat) : (count page : Nat) → VmM Nat
  | 0, _ => pure newsz
  | count + 1, page => do
    let mem ← kalloc
    match mem with
    | none => do
      let _ ← deallocuvm d newsz oldsz
      pure 0
    | some frame => do
      change fun vm => vm.fill frame fun _ => 0
      -- the result of mappages is not looked at
      let mapped ← mappage d page { frame := frame, write := true, user := true }
      onlyIf (mapped = true) (change fun vm => { vm with grants := (d, page, frame) :: vm.grants })
      allocFrom d oldsz newsz count (page + 1)

/-- Grow a process from `oldsz` to `newsz`: the new size, or 0 on error. -/
def allocuvm (d oldsz newsz : Nat) : VmM Nat :=
  if KERNBASE ≤ newsz then pure 0
  else if newsz < oldsz then pure oldsz
  else allocFrom d oldsz newsz (pageUp newsz - pageUp oldsz) (pageUp oldsz)

def freeTable (d index : Nat) : VmM Unit := do
  let dir ← dirAt d
  match dir.table index with
  | none => pure ()
  | some frame => do
    kfree frame
    change fun vm => vm.setDir d (some { dir with table := update dir.table index none })

/-- Free a page directory and all the frames in the user part. -/
def freevm (d : Nat) : VmM Unit := do
  let _ ← deallocuvm d KERNBASE 0
  forUp (freeTable d) NPDENTRIES 0
  change fun vm => vm.setDir d none
  kfree d

/-- Clear `PTE_U` on a page. -/
def clearpteu (d page : Nat) : VmM Unit := do
  let found ← walkpgdir d page false
  if found = false then panic "clearpteu"
  else do
    let dir ← dirAt d
    change fun vm => vm.setDir d (some (dir.setEntry page
      ((dir.entry page).map fun entry => { entry with user := false })))

/-- The loop of `copyuvm`, `count` more pages from `page` on: whether it succeeded. -/
def copyFrom (pgdir d : Nat) : (count page : Nat) → VmM Bool
  | 0, _ => pure true
  | count + 1, page => do
    let found ← walkpgdir pgdir page false
    if found = false then panic "copyuvm: pte should exist"
    else do
      let dir ← dirAt pgdir
      match dir.entry page with
      | none => panic "copyuvm: page not present"
      | some entry => do
        let mem ← kalloc
        match mem with
        | none => pure false
        | some frame => do
          change fun vm => vm.fill frame (vm.mem entry.frame)
          let mapped ← mappage d page { frame := frame, write := true, user := true }
          if mapped then copyFrom pgdir d count (page + 1) else pure false

/-- Create a copy of the user part of a page directory for a child. -/
def copyuvm (pgdir sz : Nat) : VmM (Option Nat) := do
  let made ← setupkvm
  match made with
  | none => pure none
  | some d => do
    let copied ← copyFrom pgdir d (pageUp sz) 0
    if copied then pure (some d)
    else do
      freevm d
      pure none

/-! ## Loading programs -/

/-- `readi` of a file with the given content: the result and the bytes. -/
def readFile (content : List Byte) (off n : Nat) : Int × List Byte :=
  if content.length < off ∨ 2 ^ 32 ≤ off + n then (-1, [])
  else
    let bytes := (content.drop off).take n
    (bytes.length, bytes)

/-- The bytes of a frame after a store at its beginning. -/
def patch (old : Nat → Byte) (bytes : List Byte) (offset : Nat) : Byte :=
  bytes.getD offset (old offset)

/-- The page loop of `loaduvm`, at most `count` more pages from byte `i` on. -/
def loadPages (d addr : Nat) (content : List Byte) (offset sz : Nat) : (count i : Nat) → VmM Bool
  | 0, _ => pure true
  | count + 1, i =>
    if sz ≤ i then pure true
    else do
      let page := (addr + i) % 2 ^ 32 / PGSIZE
      let found ← walkpgdir d page false
      if found = false then panic "loaduvm: address should exist"
      else do
        let dir ← dirAt d
        -- an entry that is not present is zero
        let frame := match dir.entry page with
          | none => 0
          | some entry => entry.frame
        let n := min (sz - i) PGSIZE
        let (r, bytes) := readFile content ((offset + i) % 2 ^ 32) n
        change fun vm => vm.fill frame (patch (vm.mem frame) bytes)
        onlyIf (0 < r) (change fun vm => { vm with stores := (d, page, frame) :: vm.stores })
        if r ≠ n then pure false else loadPages d addr content offset sz count (i + PGSIZE)

/-- Load a program segment into the pages at `addr`. -/
def loaduvm (d addr : Nat) (content : List Byte) (offset sz : Nat) : VmM Bool :=
  if addr % PGSIZE ≠ 0 then panic "loaduvm: addr must be page aligned"
  else loadPages d addr content offset sz (sz / PGSIZE + 1) 0

/-- The loop over the program headers, `count` of them from offset `off` on: the
size of the new process, or zero. -/
def loadSegments (d : Nat) (content : List Byte) : (count off sz : Nat) → VmM (Option Nat)
  | 0, _, sz => pure (some sz)
  | count + 1, off, sz =>
    let (r, ph) := readFile content off 32
    if r ≠ 32 then pure none
    else if wordOf ph 0 ≠ ELF_PROG_LOAD then
      loadSegments d content count ((off + 32) % 2 ^ 32) sz
    else if wordOf ph 20 < wordOf ph 16 then pure none
    else do
      let sz ← allocuvm d sz ((wordOf ph 8 + wordOf ph 20) % 2 ^ 32)
      if sz = 0 then pure none
      else do
        let loaded ← loaduvm d (wordOf ph 8) content (wordOf ph 4) (wordOf ph 16)
        if loaded then loadSegments d content count ((off + 32) % 2 ^ 32) sz else pure none

/-- Two pages after the program: one that the user cannot access, and the stack. -/
def addStack (d sz : Nat) : VmM (Option Nat) := do
  let sz := pageUp sz * PGSIZE
  let sz ← allocuvm d sz ((sz + 2 * PGSIZE) % 2 ^ 32)
  if sz = 0 then pure none
  else do
    clearpteu d ((sz - 2 * PGSIZE) / PGSIZE)
    pure (some sz)

def loadProgram (d : Nat) (content : List Byte) (phnum phoff : Nat) : VmM (Option Nat) := do
  let loaded ← loadSegments d content phnum phoff 0
  match loaded with
  | none => pure none
  | some sz => addStack d sz

/-- Build the address space of a program: the directory and the size. `pushed`
tells whether the arguments fit on the stack. -/
def buildImage (content : List Byte) (pushed : Bool) : VmM (Option (Nat × Nat)) := do
  let (r, elf) := readFile content 0 52
  if r < 52 then pure none
  else if wordOf elf 0 ≠ ELF_MAGIC then pure none
  else do
    let made ← setupkvm
    match made with
    | none => pure none
    | some d => do
      let stacked ← loadProgram d content (halfOf elf 44) (wordOf elf 28)
      match stacked with
      | none => do
        freevm d
        pure none
      | some sz =>
        if pushed then pure (some (d, sz))
        else do
          freevm d
          pure none

/-! ## Processes -/

def Vm.setTask (vm : Vm) (pid : Fin NPROC) (task : Option Task) : Vm :=
  { vm with tasks := update vm.tasks pid task }

def taskAt (pid : Fin NPROC) : VmM Task := do
  let vm ← visible
  match vm.tasks pid with
  | none => throw (.undefined "process")
  | some task => pure task

def exec (pid : Fin NPROC) (content : List Byte) (pushed : Bool) : VmM Int := do
  let built ← buildImage content pushed
  match built with
  | none => pure (-1)
  | some (d, sz) => do
    let task ← taskAt pid
    change fun vm => vm.setTask pid (some { task with pgdir := d, sz := sz })
    freevm task.pgdir
    pure 0

/-- The size that `growproc` sets, or 0 on error. -/
def resize (d sz : Nat) (n : Int) : VmM Nat :=
  let wanted := ((sz + n) % 2 ^ 32).toNat
  if 0 < n then allocuvm d sz wanted
  else if n < 0 then deallocuvm d sz wanted
  else pure sz

/-- Grow the memory of a process by `n` bytes. -/
def growproc (pid : Fin NPROC) (n : Int) : VmM Int := do
  let task ← taskAt pid
  let sz ← resize task.pgdir task.sz n
  if n ≠ 0 ∧ sz = 0 then pure (-1)
  else do
    change fun vm => vm.setTask pid (some { task with sz := sz })
    pure 0

def sys_sbrk (pid : Fin NPROC) (n : Int) : VmM Int := do
  let task ← taskAt pid
  let r ← growproc pid n
  pure (if r < 0 then -1 else task.sz)

def Vm.setEmbryo (vm : Vm) (pid : Fin NPROC) (embryo : Bool) : Vm :=
  { vm with embryo := update vm.embryo pid embryo }

/-- `child` is the unused entry that `allocproc` finds. -/
def fork (pid child : Fin NPROC) : VmM Int := do
  let task ← taskAt pid
  change fun vm => vm.setEmbryo child true
  let stack ← kalloc
  match stack with
  | none => do
    change fun vm => vm.setEmbryo child false
    pure (-1)
  | some kstack => do
    let copied ← copyuvm task.pgdir task.sz
    match copied with
    | none => do
      kfree kstack
      change fun vm => vm.setEmbryo child false
      pure (-1)
    | some d => do
      change fun vm => (vm.setTask child
        (some { pgdir := d, sz := task.sz, kstack := kstack, parent := pid })).setEmbryo child false
      pure child.val

/-- The children of a process that exits are those of `initproc`. -/
def Task.pass (pid : Fin NPROC) (child : Task) : Task :=
  if child.parent = pid then { child with parent := initproc } else child

/-- A process becomes a zombie, and its children those of `initproc`. -/
def exit (pid : Fin NPROC) : VmM Unit := do
  let task ← taskAt pid
  if pid = initproc then panic "init exiting"
  else do
    change fun vm => { vm with tasks := fun other => (vm.tasks other).map (Task.pass pid) }
    change fun vm => vm.setTask pid (some { task with zombie := true })

/-- Reap the zombie that `wait` finds. -/
def reap (child : Fin NPROC) : VmM Int := do
  let task ← taskAt child
  kfree task.kstack
  change fun vm => vm.setTask child none
  freevm task.pgdir
  pure child.val

def pipealloc : VmM (Option Nat) := do
  let page ← kalloc
  match page with
  | none => pure none
  | some p => do
    change fun vm => { vm with pipes := p :: vm.pipes }
    pure (some p)

def pipefree (p : Nat) : VmM Unit := do
  change fun vm => { vm with pipes := vm.pipes.filter (· ≠ p) }
  kfree p

/-! ## The machine -/

inductive Call where
  | fork (child : Fin NPROC)
  | exec (content : List Byte) (pushed : Bool)
  | sbrk (n : Int)
  | exit
  | wait (child : Fin NPROC)
  | pipe
  | pipeclose (p : Nat)

/-- A process that is not a zombie can make the call: `fork` needs an unused entry
of the process table, `wait` a zombie child, and only the page of a pipe is freed
with it. The argument of `sbrk` is a 32-bit number. -/
def Vm.Enabled (vm : Vm) (pid : Fin NPROC) (call : Call) : Prop :=
  (∃ task, vm.tasks pid = some task ∧ task.zombie = false) ∧
    match call with
    | .fork child => vm.tasks child = none
    | .wait child => ∃ task, vm.tasks child = some task ∧ task.zombie = true ∧ task.parent = pid
    | .pipeclose p => p ∈ vm.pipes
    | .sbrk n => -2 ^ 31 ≤ n ∧ n < 2 ^ 31
    | _ => True

def perform (pid : Fin NPROC) : Call → VmM Int
  | .fork child => fork pid child
  | .exec content pushed => exec pid content pushed
  | .sbrk n => sys_sbrk pid n
  | .exit => do
    exit pid
    pure 0
  | .wait child => reap child
  | .pipe => do
    let page ← pipealloc
    pure (if page.isSome then 0 else -1)
  | .pipeclose p => do
    pipefree p
    pure 0

def Vm.Step (vm : Vm) (pid : Fin NPROC) (call : Call) (result : Int) (next : Vm) : Prop :=
  vm.Enabled pid call ∧ ∃ fails fails', perform pid call (vm, fails) = .ok result (next, fails')

def inituvm (d : Nat) : VmM Unit := do
  let mem ← kalloc
  match mem with
  | none => throw (.undefined "inituvm")
  | some frame => do
    let _ ← mappage d 0 { frame := frame, write := true, user := true }

def userinit : VmM Unit := do
  let stack ← kalloc
  match stack with
  | none => throw (.undefined "userinit")
  | some kstack => do
    let made ← setupkvm
    match made with
    | none => panic "userinit: out of memory?"
    | some d => do
      inituvm d
      change fun vm => vm.setTask initproc (some { pgdir := d, sz := PGSIZE, kstack := kstack, parent := initproc })

def kvmalloc : VmM Unit := do
  let _ ← setupkvm

/-- The kernel after the first process has been set up. -/
def Booted (vm : Vm) : Prop :=
  ∃ link free fails fails', free.Nodup ∧ (do
    kvmalloc
    userinit) ({ link := link, free := free }, fails) = .ok () (vm, fails')

end Xv6Dedup.Paging
