import Xv6Dedup.Kernel.Layout
import Xv6Dedup.System.Calls

/-!
# The directory tree

Inodes with their types, link counts and directory entries, the references that
open files and working directories hold, and the system calls on paths. A
directory is the list of its entries; where its blocks lie and how they are
logged is left to the other modules.
-/

set_option autoImplicit false

namespace Xv6Dedup.Tree

open Program

/-- The entries that fit into `MAXFILE` blocks. -/
abbrev MAXENTRIES : Nat := 4480

/-- A directory entry; it is free if the inode number is zero. -/
structure Entry where
  inum : Nat
  name : List Byte
  deriving DecidableEq

abbrev dot : List Byte := [46]
abbrev dotdot : List Byte := [46, 46]

structure Node where
  type : Nat := 0
  nlink : Nat := 0
  entries : List Entry := []
  data : List Byte := []
  deriving DecidableEq

/-- A `struct file` of type `FD_INODE`. -/
structure OpenFile where
  inum : Nat
  ref : Nat
  writable : Bool

structure Proc where
  cwd : Nat
  ofile : Fin NOFILE → Option (Fin NFILE)

structure Fs where
  nodes : Nat → Node
  /-- The reference counts and valid flags of the inode cache. -/
  ref : Nat → Nat
  valid : Nat → Bool
  files : Fin NFILE → Option OpenFile
  procs : Fin NPROC → Option Proc

abbrev TreeM := Program Stop Fs Unit

def panic {α : Type} (message : String) : TreeM α := throw (.panic message)

/-! ## Inodes -/

def Fs.setNode (fs : Fs) (inum : Nat) (node : Node) : Fs :=
  { fs with nodes := Function.update fs.nodes inum node }

def Fs.setRef (fs : Fs) (inum count : Nat) : Fs :=
  { fs with ref := Function.update fs.ref inum count }

def Fs.setValid (fs : Fs) (inum : Nat) (valid : Bool) : Fs :=
  { fs with valid := Function.update fs.valid inum valid }

def nodeAt (inum : Nat) : TreeM Node := do
  let fs ← visible
  pure (fs.nodes inum)

def Fs.cached (fs : Fs) : Nat := (List.range NINODES).countP fun inum => 0 < fs.ref inum

def iget (inum : Nat) : TreeM Unit := do
  let fs ← visible
  if 0 < fs.ref inum then change fun fs => fs.setRef inum (fs.ref inum + 1)
  else if NINODE ≤ fs.cached then panic "iget: no inodes"
  else change fun fs => (fs.setRef inum 1).setValid inum false

def idup (inum : Nat) : TreeM Unit := change fun fs => fs.setRef inum (fs.ref inum + 1)

/-- Lock an inode; calls run one at a time, so it is not busy. -/
def ilock (inum : Nat) : TreeM Unit := do
  let fs ← visible
  if fs.ref inum < 1 then panic "ilock"
  else if fs.valid inum = true then pure ()
  else do
    change fun fs => fs.setValid inum true
    if (fs.nodes inum).type = 0 then panic "ilock: no type" else pure ()

/-- Drop a reference; the last one of an inode without links frees it. -/
def iput (inum : Nat) : TreeM Unit := do
  let fs ← visible
  onlyIf (fs.ref inum = 1 ∧ fs.valid inum = true ∧ (fs.nodes inum).nlink = 0)
    (change fun fs => (fs.setNode inum {}).setValid inum false)
  change fun fs => fs.setRef inum (fs.ref inum - 1)

def Fs.freeInode (fs : Fs) : Option Nat :=
  (List.range NINODES).find? fun inum => 0 < inum ∧ (fs.nodes inum).type = 0

def ialloc (type : Nat) : TreeM Nat := do
  let fs ← visible
  match fs.freeInode with
  | none => panic "ialloc: no inodes"
  | some inum => do
    change fun fs => fs.setNode inum { type := type }
    iget inum
    pure inum

def setNlink (inum : Nat) (update : Nat → Nat) : TreeM Unit :=
  change fun fs => fs.setNode inum
    { fs.nodes inum with nlink := update (fs.nodes inum).nlink % 2 ^ 16 }

/-! ## Directories -/

def Node.position (node : Node) (name : List Byte) : Nat :=
  node.entries.findIdx fun entry => entry.inum ≠ 0 ∧ entry.name = name

def Node.vacancy (node : Node) : Nat := node.entries.findIdx fun entry => entry.inum = 0

/-- Write an entry at a position, which may be the end. -/
def Node.putEntry (node : Node) (position : Nat) (entry : Entry) : Node :=
  { node with entries :=
    if position < node.entries.length then node.entries.set position entry
    else node.entries ++ [entry] }

/-- The inode of the name, with a reference, and the position of the entry. -/
def dirlookup (dp : Nat) (name : List Byte) : TreeM (Option (Nat × Nat)) := do
  let node ← nodeAt dp
  if node.type ≠ T_DIR then panic "dirlookup not DIR"
  else
    match node.entries[node.position name]? with
    | none => pure none
    | some entry => do
      iget entry.inum
      pure (some (entry.inum, node.position name))

def dirlink (dp : Nat) (name : List Byte) (inum : Nat) : TreeM Int := do
  let present ← dirlookup dp name
  match present with
  | some (ip, _) => do
    iput ip
    pure (-1)
  | none => do
    let node ← nodeAt dp
    if MAXENTRIES ≤ node.vacancy then panic "dirlink"
    else do
      change fun fs => fs.setNode dp (node.putEntry node.vacancy { inum := inum, name := name })
      pure 0

/-- The loop of `namex`, at most `count` more elements. -/
def namexFrom (nameiparent : Bool) : (count ip : Nat) → List Byte → TreeM (Option (Nat × List Byte))
  | 0, _, _ => pure none
  | count + 1, ip, path =>
    match skipelem path with
    | none =>
      if nameiparent then do
        iput ip
        pure none
      else pure (some (ip, []))
    | some (name, rest) => do
      ilock ip
      let node ← nodeAt ip
      if node.type ≠ T_DIR then do
        iput ip
        pure none
      else if nameiparent = true ∧ rest = [] then pure (some (ip, name))
      else do
        let next ← dirlookup ip name
        match next with
        | none => do
          iput ip
          pure none
        | some (next, _) => do
          iput ip
          namexFrom nameiparent count next rest

def start (cwd : Nat) (path : List Byte) : TreeM Nat :=
  if path.head? = some slash then do
    iget ROOTINO
    pure ROOTINO
  else do
    idup cwd
    pure cwd

def namex (cwd : Nat) (path : List Byte) (nameiparent : Bool) : TreeM (Option (Nat × List Byte)) := do
  let ip ← start cwd path
  namexFrom nameiparent (path.length + 1) ip path

def namei (cwd : Nat) (path : List Byte) : TreeM (Option Nat) := do
  let found ← namex cwd path false
  pure (found.map (·.1))

def nameiparent (cwd : Nat) (path : List Byte) : TreeM (Option (Nat × List Byte)) :=
  namex cwd path true

/-! ## Links -/

def linkDots (ip dp : Nat) : TreeM Unit := do
  setNlink dp (· + 1)
  let self ← dirlink ip dot ip
  if self < 0 then panic "create dots"
  else do
    let parent ← dirlink ip dotdot dp
    if parent < 0 then panic "create dots" else pure ()

def createNew (dp : Nat) (name : List Byte) (type : Nat) : TreeM (Option Nat) := do
  let ip ← ialloc type
  ilock ip
  setNlink ip fun _ => 1
  onlyIf (type = T_DIR) (linkDots ip dp)
  let linked ← dirlink dp name ip
  if linked < 0 then panic "create: dirlink"
  else do
    iput dp
    pure (some ip)

def create (cwd : Nat) (path : List Byte) (type : Nat) : TreeM (Option Nat) := do
  let parent ← nameiparent cwd path
  match parent with
  | none => pure none
  | some (dp, name) => do
    ilock dp
    let present ← dirlookup dp name
    match present with
    | some (ip, _) => do
      iput dp
      ilock ip
      let node ← nodeAt ip
      if type = T_FILE ∧ node.type = T_FILE then pure (some ip)
      else do
        iput ip
        pure none
    | none => createNew dp name type

/-- The common body of `sys_mkdir` and `sys_mknod`. -/
def makeNode (cwd : Nat) (path : List Byte) (type : Nat) : TreeM Int := do
  let made ← create cwd path type
  match made with
  | none => pure (-1)
  | some ip => do
    iput ip
    pure 0

/-- The label `bad` of `sys_link`. -/
def linkBad (ip : Nat) : TreeM Int := do
  ilock ip
  setNlink ip (· + (2 ^ 16 - 1))
  iput ip
  pure (-1)

def sys_link (cwd : Nat) (old new : List Byte) : TreeM Int := do
  let found ← namei cwd old
  match found with
  | none => pure (-1)
  | some ip => do
    ilock ip
    let node ← nodeAt ip
    if node.type = T_DIR then do
      iput ip
      pure (-1)
    else do
      setNlink ip (· + 1)
      let parent ← nameiparent cwd new
      match parent with
      | none => linkBad ip
      | some (dp, name) => do
        ilock dp
        let linked ← dirlink dp name ip
        if linked < 0 then do
          iput dp
          linkBad ip
        else do
          iput dp
          iput ip
          pure 0

/-- Is the directory empty except for its first two entries? -/
def Node.isEmpty (node : Node) : Bool := (node.entries.drop 2).all fun entry => entry.inum = 0

/-- The part of `sys_unlink` that removes the entry. -/
def unlinkEntry (dp ip position : Nat) : TreeM Int := do
  change fun fs => fs.setNode dp ((fs.nodes dp).putEntry position { inum := 0, name := [] })
  let node ← nodeAt ip
  onlyIf (node.type = T_DIR) (setNlink dp (· + (2 ^ 16 - 1)))
  iput dp
  setNlink ip (· + (2 ^ 16 - 1))
  iput ip
  pure 0

def unlinkBad (dp : Nat) : TreeM Int := do
  iput dp
  pure (-1)

def sys_unlink (cwd : Nat) (path : List Byte) : TreeM Int := do
  let parent ← nameiparent cwd path
  match parent with
  | none => pure (-1)
  | some (dp, name) => do
    ilock dp
    if name = dot ∨ name = dotdot then unlinkBad dp
    else do
      let found ← dirlookup dp name
      match found with
      | none => unlinkBad dp
      | some (ip, position) => do
        ilock ip
        let node ← nodeAt ip
        if node.nlink = 0 ∨ 2 ^ 15 ≤ node.nlink then panic "unlink: nlink < 1"
        else if node.type = T_DIR ∧ node.isEmpty = false then do
          iput ip
          unlinkBad dp
        else unlinkEntry dp ip position

/-! ## Files and processes -/

/-- The inode that `open` opens. -/
def openInode (cwd : Nat) (path : List Byte) (omode : Nat) : TreeM (Option Nat) :=
  if omode &&& O_CREATE ≠ 0 then create cwd path T_FILE
  else do
    let found ← namei cwd path
    match found with
    | none => pure none
    | some ip => do
      ilock ip
      let node ← nodeAt ip
      if node.type = T_DIR ∧ omode ≠ O_RDONLY then do
        iput ip
        pure none
      else pure (some ip)

def Fs.setFile (fs : Fs) (f : Fin NFILE) (file : Option OpenFile) : Fs :=
  { fs with files := Function.update fs.files f file }

def Fs.setProc (fs : Fs) (pid : Fin NPROC) (proc : Option Proc) : Fs :=
  { fs with procs := Function.update fs.procs pid proc }

def procAt (pid : Fin NPROC) : TreeM Proc := do
  let fs ← visible
  match fs.procs pid with
  | none => throw (.undefined "process")
  | some proc => pure proc

def fileAt (f : Fin NFILE) : TreeM OpenFile := do
  let fs ← visible
  match fs.files f with
  | none => panic "file"
  | some file => pure file

def Fs.freeFile (fs : Fs) : Option (Fin NFILE) :=
  (List.finRange NFILE).find? fun f => (fs.files f).isNone

def Proc.freeFd (proc : Proc) : Option (Fin NOFILE) :=
  (List.finRange NOFILE).find? fun fd => (proc.ofile fd).isNone

def Proc.setFd (proc : Proc) (fd : Fin NOFILE) (f : Option (Fin NFILE)) : Proc :=
  { proc with ofile := Function.update proc.ofile fd f }

def sys_open (pid : Fin NPROC) (path : List Byte) (omode : Nat) : TreeM Int := do
  let proc ← procAt pid
  let opened ← openInode proc.cwd path omode
  match opened with
  | none => pure (-1)
  | some ip => do
    let fs ← visible
    match fs.freeFile, proc.freeFd with
    | some f, some fd => do
      change fun fs => (fs.setFile f (some {
          inum := ip
          ref := 1
          writable := decide (omode &&& O_WRONLY ≠ 0 ∨ omode &&& O_RDWR ≠ 0) })).setProc pid
        (some (proc.setFd fd (some f)))
      pure fd.val
    | _, _ => do
      iput ip
      pure (-1)

def filedup (f : Fin NFILE) : TreeM Unit := do
  let file ← fileAt f
  change fun fs => fs.setFile f (some { file with ref := file.ref + 1 })

def fileclose (f : Fin NFILE) : TreeM Unit := do
  let file ← fileAt f
  if 1 < file.ref then change fun fs => fs.setFile f (some { file with ref := file.ref - 1 })
  else do
    change fun fs => fs.setFile f none
    iput file.inum

def sys_dup (pid : Fin NPROC) (fd : Fin NOFILE) : TreeM Int := do
  let proc ← procAt pid
  match proc.ofile fd, proc.freeFd with
  | some f, some copy => do
    change fun fs => fs.setProc pid (some (proc.setFd copy (some f)))
    filedup f
    pure copy.val
  | _, _ => pure (-1)

def sys_close (pid : Fin NPROC) (fd : Fin NOFILE) : TreeM Int := do
  let proc ← procAt pid
  match proc.ofile fd with
  | none => pure (-1)
  | some f => do
    change fun fs => fs.setProc pid (some (proc.setFd fd none))
    fileclose f
    pure 0

/-- The file has `data` after the call. -/
def sys_write (pid : Fin NPROC) (fd : Fin NOFILE) (data : List Byte) : TreeM Int := do
  let proc ← procAt pid
  match proc.ofile fd with
  | none => pure (-1)
  | some f => do
    let file ← fileAt f
    if file.writable = false then pure (-1)
    else do
      change fun fs => fs.setNode file.inum { fs.nodes file.inum with data := data }
      pure data.length

def sys_chdir (pid : Fin NPROC) (path : List Byte) : TreeM Int := do
  let proc ← procAt pid
  let found ← namei proc.cwd path
  match found with
  | none => pure (-1)
  | some ip => do
    ilock ip
    let node ← nodeAt ip
    if node.type ≠ T_DIR then do
      iput ip
      pure (-1)
    else do
      iput proc.cwd
      change fun fs => fs.setProc pid (some { proc with cwd := ip })
      pure 0

def dupFiles (proc : Proc) : List (Fin NOFILE) → TreeM Unit
  | [] => pure ()
  | fd :: rest => do
    match proc.ofile fd with
    | none => pure ()
    | some f => filedup f
    dupFiles proc rest

/-- `child` is the unused entry of the process table. -/
def fork (pid child : Fin NPROC) : TreeM Int := do
  let proc ← procAt pid
  dupFiles proc (List.finRange NOFILE)
  idup proc.cwd
  change fun fs => fs.setProc child (some proc)
  pure child.val

def closeFiles (proc : Proc) : List (Fin NOFILE) → TreeM Unit
  | [] => pure ()
  | fd :: rest => do
    match proc.ofile fd with
    | none => pure ()
    | some f => fileclose f
    closeFiles proc rest

def exit (pid : Fin NPROC) : TreeM Int := do
  let proc ← procAt pid
  if pid = initproc then panic "init exiting"
  else do
    closeFiles proc (List.finRange NOFILE)
    iput proc.cwd
    change fun fs => fs.setProc pid none
    pure 0

inductive Call where
  | link (old new : List Byte)
  | unlink (path : List Byte)
  | mkdir (path : List Byte)
  | mknod (path : List Byte)
  | open (path : List Byte) (omode : Nat)
  | chdir (path : List Byte)
  | dup (fd : Fin NOFILE)
  | close (fd : Fin NOFILE)
  | write (fd : Fin NOFILE) (data : List Byte)
  | read
  | fork (child : Fin NPROC)
  | exit

/-- A path that the caller's working directory is the start of. -/
def withCwd (pid : Fin NPROC) (call : Nat → TreeM Int) : TreeM Int := do
  let proc ← procAt pid
  call proc.cwd

/-- Reading only moves the offset of the file, which is not modelled. -/
def perform (pid : Fin NPROC) : Call → TreeM Int
  | .link old new => withCwd pid fun cwd => sys_link cwd old new
  | .unlink path => withCwd pid fun cwd => sys_unlink cwd path
  | .mkdir path => withCwd pid fun cwd => makeNode cwd path T_DIR
  | .mknod path => withCwd pid fun cwd => makeNode cwd path T_DEV
  | .open path omode => sys_open pid path omode
  | .chdir path => sys_chdir pid path
  | .dup fd => sys_dup pid fd
  | .close fd => sys_close pid fd
  | .write fd data => sys_write pid fd data
  | .read => pure 0
  | .fork child => fork pid child
  | .exit => exit pid

/-- The call of a process returns; `fork` finds an unused entry. -/
def Fs.Step (fs : Fs) (pid : Fin NPROC) (call : Call) (result : Int) (next : Fs) : Prop :=
  (∀ child, call = .fork child → fs.procs child = none) ∧ perform pid call (fs, ()) = .ok result (next, ())

end Xv6Dedup.Tree
