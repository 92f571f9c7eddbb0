import Xv6Dedup.Kernel.BioProperties
import Xv6Dedup.Kernel.Dedup
import Xv6Dedup.Kernel.File

/-!
# System calls

The calls of `sysfile.c`, `exec.c` and `proc.c` that use the file system, and
the machine whose processes make them one at a time. Arguments have been
fetched from user memory: a call whose arguments cannot be fetched returns -1
and does nothing else, except `mkdir` and `mknod`, which have begun a
transaction by then. Memory management is left to the environment.
-/

set_option autoImplicit false

namespace Xv6Dedup

open Function Program

abbrev NOFILE : Nat := 16
abbrev NPROC : Nat := 64
abbrev PGSIZE : Nat := 4096

abbrev Ofile := Fin NOFILE → Option (Fin NFILE)

/-! ## File descriptors -/

def argfd (ofile : Ofile) (fd : Int) : Option (Fin NOFILE × Fin NFILE) :=
  if bounded : 0 ≤ fd ∧ fd < NOFILE then
    let fd : Fin NOFILE := ⟨fd.toNat, by omega⟩
    (ofile fd).map fun f => (fd, f)
  else none

def fdalloc (ofile : Ofile) (f : Fin NFILE) : Option (Ofile × Fin NOFILE) :=
  ((List.finRange NOFILE).find? fun fd => (ofile fd).isNone).map fun fd =>
    (update ofile fd (some f), fd)

/-- Increment the ref count of file `f`. -/
def filedup (f : Fin NFILE) : FsM Unit := do
  let file ← fileAt f
  if file.ref < 1 then kernelPanic "filedup"
  else setFile f { file with ref := file.ref + 1 }

def sys_dup (ofile : Ofile) (fd : Int) : FsM (Ofile × Int) :=
  match argfd ofile fd with
  | none => pure (ofile, -1)
  | some (_, f) =>
    match fdalloc ofile f with
    | none => pure (ofile, -1)
    | some (ofile, fd) => do
      filedup f
      pure (ofile, fd.val)

def sys_write (ofile : Ofile) (fd : Int) (p : Nat → Byte) (n : Int) : FsM Int :=
  match argfd ofile fd with
  | none => pure (-1)
  | some (_, f) => filewrite f p n

def sys_close (ofile : Ofile) (fd : Int) : FsM (Ofile × Int) :=
  match argfd ofile fd with
  | none => pure (ofile, -1)
  | some (fd, f) => do
    fileclose f
    pure (update ofile fd none, 0)

/-! ## Pipes -/

/-- Two files on a new pipe, `page` being what `kalloc` returns. -/
def pipealloc (page : Option Nat) : FsM (Option (Fin NFILE × Fin NFILE)) := do
  let first ← filealloc
  match first with
  | none => pure none
  | some f0 => do
    let second ← filealloc
    match second with
    | none => do
      fileclose f0
      pure none
    | some f1 =>
      match page with
      | none => do
        fileclose f0
        fileclose f1
        pure none
      | some p => do
        change fun state => state.setPipe p (some {})
        let file0 ← fileAt f0
        setFile f0 { file0 with type := .pipe, readable := true, writable := false, pipe := p }
        let file1 ← fileAt f1
        setFile f1 { file1 with type := .pipe, readable := false, writable := true, pipe := p }
        pure (some (f0, f1))

/-- `fetched` tells whether the address for the two descriptors is valid. -/
def sys_pipe (ofile : Ofile) (fetched : Bool) (page : Option Nat) : FsM (Ofile × Int) :=
  if fetched = false then pure (ofile, -1)
  else do
    let allocated ← pipealloc page
    match allocated with
    | none => pure (ofile, -1)
    | some (rf, wf) =>
      match fdalloc ofile rf with
      | none => do
        fileclose rf
        fileclose wf
        pure (ofile, -1)
      | some (one, fd0) =>
        match fdalloc one wf with
        | none => do
          fileclose rf
          fileclose wf
          pure (update one fd0 none, -1)
        | some (both, _) => pure (both, 0)

/-! ## Links, directories and device nodes -/

/-- Undo the link count of `sys_link`. -/
def linkBad (ip : Slot) : FsM Int := do
  ilock ip
  let inode ← inodeAt ip
  setInode ip { inode with nlink := (inode.nlink + 2 ^ 16 - 1) % 2 ^ 16 }
  iupdate ip
  iunlockput ip
  commit_trans
  pure (-1)

/-- The transaction of `sys_link`: count the new link and write its entry. -/
def linkInode (ip : Slot) (new : List Byte) : FsM Int := do
  ilock ip
  let inode ← inodeAt ip
  if inode.type = T_DIR then do
    iunlockput ip
    commit_trans
    pure (-1)
  else do
    setInode ip { inode with nlink := (inode.nlink + 1) % 2 ^ 16 }
    iupdate ip
    iunlock ip
    let parent ← nameiparent new
    match parent with
    | none => linkBad ip
    | some (dp, name) => do
      ilock dp
      let inode ← inodeAt ip
      let r ← dirlink dp name inode.inum
      if r < 0 then do
        iunlockput dp
        linkBad ip
      else do
        iunlockput dp
        iput ip
        commit_trans
        pure 0

/-- Create the path `new` as a link to the same inode as `old`. -/
def sys_link (old new : List Byte) : FsM Int := do
  let found ← namei old
  match found with
  | none => pure (-1)
  | some ip => do
    begin_trans
    linkInode ip new

/-- `open` with `O_CREATE` or without: the inode, locked, and then a file
structure and a descriptor for it. -/
def sys_open (ofile : Ofile) (path : List Byte) (omode : Nat) : FsM (Ofile × Int) := do
  let opened ← openInode path omode
  match opened with
  | none => pure (ofile, -1)
  | some ip => do
    let allocated ← filealloc
    match allocated with
    | none => do
      iunlockput ip
      pure (ofile, -1)
    | some f =>
      match fdalloc ofile f with
      | none => do
        fileclose f
        iunlockput ip
        pure (ofile, -1)
      | some (ofile, fd) => do
        iunlock ip
        let file ← fileAt f
        setFile f { file with
          type := .inode
          ip := ip
          off := 0
          readable := decide (omode &&& O_WRONLY = 0)
          writable := decide (omode &&& O_WRONLY ≠ 0 ∨ omode &&& O_RDWR ≠ 0) }
        pure (ofile, fd.val)

/-- `create`, once the arguments have been fetched; `none` if they could not be. -/
def createFetched (path : Option (List Byte)) (type major minor : Nat) : FsM (Option Slot) :=
  match path with
  | none => pure none
  | some path => create path type major minor

/-- The common body of `sys_mkdir` and `sys_mknod`. -/
def makeNode (path : Option (List Byte)) (type major minor : Nat) : FsM Int := do
  begin_trans
  let made ← createFetched path type major minor
  match made with
  | none => do
    commit_trans
    pure (-1)
  | some ip => do
    iunlockput ip
    commit_trans
    pure 0

def sys_mkdir (path : Option (List Byte)) : FsM Int := makeNode path T_DIR 0 0

def sys_mknod (path : Option (List Byte)) (major minor : Nat) : FsM Int :=
  makeNode path T_DEV (major % 2 ^ 16) (minor % 2 ^ 16)

def sys_chdir (path : List Byte) : FsM Int := do
  let found ← namei path
  match found with
  | none => pure (-1)
  | some ip => do
    ilock ip
    let inode ← inodeAt ip
    if inode.type ≠ T_DIR then do
      iunlockput ip
      pure (-1)
    else do
      iunlock ip
      let state ← visible
      iput state.cwd
      change fun state => { state with cwd := ip }
      pure 0

/-! ## Programs -/

/-- What `exec` finds in memory management: whether a page directory and, in the
end, a stack can be set up, the new size that `allocuvm` returns or zero, the
pages that are present, and the bytes on the stack where the header is read to. -/
structure Memory where
  setupkvm : Bool
  allocuvm : (oldsz newsz : Nat) → Nat
  present : Nat → Bool
  stack : Bool
  stale : List Byte

def wordOf (bytes : List Byte) (offset : Nat) : Nat :=
  (bytes.getD offset 0).toNat + 256 * (bytes.getD (offset + 1) 0).toNat +
    256 ^ 2 * (bytes.getD (offset + 2) 0).toNat + 256 ^ 3 * (bytes.getD (offset + 3) 0).toNat

def halfOf (bytes : List Byte) (offset : Nat) : Nat :=
  (bytes.getD offset 0).toNat + 256 * (bytes.getD (offset + 1) 0).toNat

def ELF_MAGIC : Nat := 0x464C457F
def ELF_PROG_LOAD : Nat := 1

/-- The page loop of `loaduvm`, at most `count` more pages from byte `i` on. -/
def loadPages (memory : Memory) (addr : Nat) (ip : Slot) (offset sz : Nat) : (count i : Nat) → FsM Bool
  | 0, _ => pure true
  | count + 1, i =>
    if sz ≤ i then pure true
    else if memory.present ((addr + i) % 2 ^ 32) = false then
      kernelPanic "loaduvm: address should exist"
    else do
      let n := min (sz - i) PGSIZE
      let (r, _) ← readi ip ((offset + i) % 2 ^ 32) n
      if r ≠ n then pure false else loadPages memory addr ip offset sz count (i + PGSIZE)

/-- Load a program segment into the pages at `addr`. -/
def loaduvm (memory : Memory) (addr : Nat) (ip : Slot) (offset sz : Nat) : FsM Bool :=
  if addr % PGSIZE ≠ 0 then kernelPanic "loaduvm: addr must be page aligned"
  else loadPages memory addr ip offset sz (sz / PGSIZE + 1) 0

/-- The loop over the program headers, `count` of them from offset `off` on. -/
def loadSegments (memory : Memory) (ip : Slot) : (count off sz : Nat) → FsM Bool
  | 0, _, _ => pure true
  | count + 1, off, sz => do
    let (r, ph) ← readi ip off 32
    if r ≠ 32 then pure false
    else if wordOf ph 0 ≠ ELF_PROG_LOAD then
      loadSegments memory ip count ((off + 32) % 2 ^ 32) sz
    else if wordOf ph 20 < wordOf ph 16 then pure false
    else
      let sz := memory.allocuvm sz ((wordOf ph 8 + wordOf ph 20) % 2 ^ 32)
      if sz = 0 then pure false
      else do
        let loaded ← loaduvm memory (wordOf ph 8) ip (wordOf ph 4) (wordOf ph 16)
        if loaded then loadSegments memory ip count ((off + 32) % 2 ^ 32) sz else pure false

/-- The part of `exec` that reads the file. -/
def loadImage (memory : Memory) (ip : Slot) : FsM Bool := do
  let (r, header) ← readi ip 0 52
  -- the comparison is unsigned, so that a failed read passes with the header unset
  let elf := if r < 0 then memory.stale else header
  if 0 ≤ r ∧ r < 52 then pure false
  else if wordOf elf 0 ≠ ELF_MAGIC then pure false
  else if memory.setupkvm = false then pure false
  else loadSegments memory ip (halfOf elf 44) (wordOf elf 28) 0

def exec (path : List Byte) (memory : Memory) : FsM Int := do
  let found ← namei path
  match found with
  | none => pure (-1)
  | some ip => do
    ilock ip
    let loaded ← loadImage memory ip
    iunlockput ip
    pure (if loaded = true ∧ memory.stack = true then 0 else -1)

/-! ## Processes -/

def dupFiles (ofile : Ofile) : List (Fin NOFILE) → FsM Unit
  | [] => pure ()
  | fd :: rest => do
    match ofile fd with
    | none => pure ()
    | some f => filedup f
    dupFiles ofile rest

/-- Copy the open files and the working directory for a new process. -/
def fork (ofile : Ofile) : FsM Slot := do
  dupFiles ofile (List.finRange NOFILE)
  let state ← visible
  idup state.cwd

def closeFiles (ofile : Ofile) : List (Fin NOFILE) → FsM Unit
  | [] => pure ()
  | fd :: rest => do
    match ofile fd with
    | none => pure ()
    | some f => fileclose f
    closeFiles ofile rest

def exit (initproc : Bool) (ofile : Ofile) : FsM Unit :=
  if initproc then kernelPanic "init exiting"
  else do
    closeFiles ofile (List.finRange NOFILE)
    let state ← visible
    iput state.cwd

/-- The part of `struct proc` that the file system uses. -/
structure Proc where
  cwd : Slot
  ofile : Ofile

/-- `fork` with no child stands for a fork that finds no process or memory, and
`pipe` with no page for one that finds no memory. -/
inductive Call where
  | dup (fd : Int)
  | write (fd : Int) (p : Nat → Byte) (n : Int)
  | close (fd : Int)
  | link (old new : List Byte)
  | unlink (path : List Byte)
  | openFile (path : List Byte) (omode : Nat)
  | mkdir (path : Option (List Byte))
  | mknod (path : Option (List Byte)) (major minor : Nat)
  | chdir (path : List Byte)
  | exec (path : List Byte) (memory : Memory)
  | fork (child : Option (Fin NPROC))
  | exit
  | dedup
  | pipe (fetched : Bool) (page : Option Nat)

/-- What a call returns: the result, the caller unless it exited, and the child. -/
structure Outcome where
  result : Int
  caller : Option Proc
  child : Option Proc := none

/-- Run a call of a process; the kernel's `cwd` is that of the running process. -/
def perform (initproc : Bool) (proc : Proc) (call : Call) : FsM Outcome := do
  change fun state => { state with cwd := proc.cwd }
  match call with
  | .dup fd => do
    let (ofile, result) ← sys_dup proc.ofile fd
    pure { result := result, caller := some { proc with ofile := ofile } }
  | .write fd p n => do
    let result ← sys_write proc.ofile fd p n
    pure { result := result, caller := some proc }
  | .close fd => do
    let (ofile, result) ← sys_close proc.ofile fd
    pure { result := result, caller := some { proc with ofile := ofile } }
  | .link old new => do
    let result ← sys_link old new
    pure { result := result, caller := some proc }
  | .unlink path => do
    let result ← sys_unlink path
    pure { result := result, caller := some proc }
  | .openFile path omode => do
    let (ofile, result) ← sys_open proc.ofile path omode
    pure { result := result, caller := some { proc with ofile := ofile } }
  | .mkdir path => do
    let result ← sys_mkdir path
    pure { result := result, caller := some proc }
  | .mknod path major minor => do
    let result ← sys_mknod path major minor
    pure { result := result, caller := some proc }
  | .chdir path => do
    let result ← sys_chdir path
    let state ← visible
    pure { result := result, caller := some { proc with cwd := state.cwd } }
  | .exec path memory => do
    let result ← exec path memory
    pure { result := result, caller := some proc }
  | .fork none => pure { result := -1, caller := some proc }
  | .fork (some child) => do
    let cwd ← fork proc.ofile
    pure { result := child.val, caller := some proc, child := some { proc with cwd := cwd } }
  | .exit => do
    exit initproc proc.ofile
    pure { result := 0, caller := none }
  | .dedup => do
    dedup
    pure { result := 0, caller := some proc }
  | .pipe fetched page => do
    let (ofile, result) ← sys_pipe proc.ofile fetched page
    pure { result := result, caller := some { proc with ofile := ofile } }

/-! ## The machine -/

structure Machine where
  kernel : State
  procs : Fin NPROC → Option Proc

/-- The process made by `userinit`. -/
def initproc : Fin NPROC := 0

def Machine.settle (machine : Machine) (pid : Fin NPROC) (call : Call) (outcome : Outcome) :
    Fin NPROC → Option Proc :=
  let procs := update machine.procs pid outcome.caller
  match call with
  | .fork (some child) => update procs child outcome.child
  | _ => procs

/-- A process can make the call; a new process needs an unused entry, and a new
pipe a page that holds none. -/
def Machine.Enabled (machine : Machine) (call : Call) : Prop :=
  match call with
  | .fork (some child) => machine.procs child = none
  | .pipe _ (some page) => machine.kernel.pipes page = none
  | _ => True

def Machine.Step (machine : Machine) (pid : Fin NPROC) (call : Call) (after : Machine) : Prop :=
  ∃ proc memo outcome next, machine.procs pid = some proc ∧ machine.Enabled call ∧ MemoOk .full memo ∧
    perform (decide (pid = initproc)) proc call (machine.kernel, memo) = .ok outcome next ∧
    after = { kernel := next.1, procs := machine.settle pid call outcome }

def Machine.Fails (machine : Machine) (pid : Fin NPROC) (call : Call) (reason : Stop) : Prop :=
  ∃ proc memo next, machine.procs pid = some proc ∧ machine.Enabled call ∧ MemoOk .full memo ∧
    perform (decide (pid = initproc)) proc call (machine.kernel, memo) = .error reason next

end Xv6Dedup
