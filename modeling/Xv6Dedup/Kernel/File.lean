import Xv6Dedup.Kernel.Inodes

/-!
# Files and directories

The file table operations of `file.c`, the directory and path layers of `fs.c`
and the system calls of `sysfile.c` that create, open and unlink files.
Strings are the bytes before their terminating NUL.
-/

set_option autoImplicit false

namespace Xv6Dedup

open Program

/-! ## File table -/

def fileAt (f : Fin NFILE) : FsM File := do
  let state ← visible
  pure (state.ftable f)

def setFile (f : Fin NFILE) (file : File) : FsM Unit :=
  change fun state => state.setFile f file

def filealloc : FsM (Option (Fin NFILE)) := do
  let state ← visible
  match (List.finRange NFILE).find? fun f => decide ((state.ftable f).ref = 0) with
  | none => pure none
  | some f => do
    setFile f { state.ftable f with ref := 1 }
    pure (some f)

def State.setPipe (state : State) (p : Nat) (pipe : Option Pipe) : State :=
  { state with pipes := Function.update state.pipes p pipe }

def Pipe.shut (writable : Bool) (pipe : Pipe) : Pipe :=
  if writable then { pipe with writeopen := false } else { pipe with readopen := false }

/-- Close one end of a pipe; the page is freed with the second end. -/
def pipeclose (p : Nat) (writable : Bool) : FsM Unit := do
  let state ← visible
  match state.pipes p with
  | none => throw (.undefined "pipe page")
  | some pipe => do
    let pipe := pipe.shut writable
    change fun state => state.setPipe p (if pipe.readopen = false ∧ pipe.writeopen = false then none else some pipe)

/-- Close file `f`: decrement its ref count, close when it reaches 0. -/
def fileclose (f : Fin NFILE) : FsM Unit := do
  let file ← fileAt f
  if file.ref < 1 then kernelPanic "fileclose"
  else if 0 < file.ref - 1 then setFile f { file with ref := file.ref - 1 }
  else do
    setFile f { file with ref := 0, type := .none }
    match file.type with
    | .inode => do
      begin_trans
      iput file.ip
      commit_trans
    | .pipe => pipeclose file.pipe file.writable
    | .none => pure ()

/-- The most bytes that `filewrite` passes to one `writei`. -/
def maxChunk : Nat := ((LOGSIZE - 1 - 1 - 2) / 2) * 512

/-- The chunk loop of `filewrite`, at most `count` more chunks: how far it got. -/
def filewriteLoop (f : Fin NFILE) (addr : Nat → Byte) (n : Nat) : (count i : Nat) → FsM Nat
  | 0, i => pure i
  | count + 1, i =>
    if n ≤ i then pure i
    else do
      let n1 := min (n - i) maxChunk
      begin_trans
      let file ← fileAt f
      ilock file.ip
      let r ← writei file.ip (fun k => addr (i + k)) file.off n1
      onlyIf (0 < r) (setFile f { file with off := (file.off + r.toNat) % 2 ^ 32 })
      iunlock file.ip
      commit_trans
      if r < 0 then pure i
      else if r ≠ n1 then kernelPanic "short filewrite"
      else filewriteLoop f addr n count (i + n1)

/-- Write to file `f`. -/
def filewrite (f : Fin NFILE) (addr : Nat → Byte) (n : Int) : FsM Int := do
  let file ← fileAt f
  if file.writable = false then pure (-1)
  else
    match file.type with
    | .pipe => do
      let state ← visible
      pure (state.drivers.pipewrite file.pipe addr n)
    | .inode => do
      let i ← filewriteLoop f addr n.toNat n.toNat 0
      pure (if (i : Int) = n then n else -1)
    | .none => kernelPanic "filewrite"

/-! ## Directories -/

def strncmp (p q : Nat → Byte) : (n position : Nat) → Int
  | 0, _ => 0
  | n + 1, position =>
    if p position ≠ 0 ∧ p position = q position then strncmp p q n (position + 1)
    else (p position).toNat - (q position).toNat

def cstring (bytes : List Byte) (index : Nat) : Byte := bytes.getD index 0

def namecmp (s t : Nat → Byte) : Int := strncmp s t DIRSIZ 0

/-- A directory entry: an inode number and `DIRSIZ` bytes of name. -/
structure Dirent where
  inum : Nat := 0
  name : Nat → Byte := fun _ => 0

def Dirent.ofBytes (bytes : List Byte) : Dirent where
  inum := (bytes.getD 0 0).toNat + 256 * (bytes.getD 1 0).toNat
  name := fun index => bytes.getD (index + 2) 0

def Dirent.byteAt (de : Dirent) (offset : Nat) : Byte :=
  if offset < 2 then Bytes.leByte de.inum offset else de.name (offset - 2)

/-- Read the directory entry at offset `off`. -/
def readDirent (dp : Slot) (off : Nat) (message : String) : FsM Dirent := do
  let (r, bytes) ← readi dp off 16
  if r ≠ 16 then kernelPanic message else pure (Dirent.ofBytes bytes)

/-- The scan of `dirlookup`, at most `count` more entries from `off` on. -/
def dirlookupFrom (dp : Slot) (name : List Byte) : (count off : Nat) → FsM (Option (Slot × Nat))
  | 0, _ => pure none
  | count + 1, off => do
    let inode ← inodeAt dp
    if inode.size ≤ off then pure none
    else do
      let de ← readDirent dp off "dirlink read"
      if de.inum ≠ 0 ∧ namecmp (cstring name) de.name = 0 then do
        let ip ← iget de.inum
        pure (some (ip, off))
      else dirlookupFrom dp name count (off + 16)

/-- Look for a directory entry in a directory: the inode and the offset. -/
def dirlookup (dp : Slot) (name : List Byte) : FsM (Option (Slot × Nat)) := do
  let inode ← inodeAt dp
  if inode.type ≠ T_DIR then kernelPanic "dirlookup not DIR"
  else dirlookupFrom dp name (inode.size / 16 + 1) 0

/-- The offset of the first empty entry, or the end of the directory. -/
def emptyFrom (dp : Slot) : (count off : Nat) → FsM Nat
  | 0, off => pure off
  | count + 1, off => do
    let inode ← inodeAt dp
    if inode.size ≤ off then pure off
    else do
      let de ← readDirent dp off "dirlink read"
      if de.inum = 0 then pure off else emptyFrom dp count (off + 16)

/-- Write a new directory entry (name, inum) into the directory `dp`. -/
def dirlink (dp : Slot) (name : List Byte) (inum : Nat) : FsM Int := do
  let present ← dirlookup dp name
  match present with
  | some (ip, _) => do
    iput ip
    pure (-1)
  | none => do
    let inode ← inodeAt dp
    let off ← emptyFrom dp (inode.size / 16 + 1) 0
    let de : Dirent := { inum := inum, name := cstring (name.take DIRSIZ) }
    let r ← writei dp de.byteAt off 16
    if r ≠ 16 then kernelPanic "dirlink" else pure 0

/-! ## Paths -/

def slash : Byte := 47

def skipelem (path : List Byte) : Option (List Byte × List Byte) :=
  let path := path.dropWhile (· = slash)
  if path = [] then none
  else some ((path.takeWhile (· ≠ slash)).take DIRSIZ, (path.dropWhile (· ≠ slash)).dropWhile (· = slash))

/-- The loop of `namex`, at most `count` more elements: the inode and, for the
parent lookup, the final element. -/
def namexFrom (nameiparent : Bool) : (count : Nat) → Slot → List Byte → FsM (Option (Slot × List Byte))
  | 0, _, _ => pure none
  | count + 1, ip, path =>
    match skipelem path with
    | none =>
      if nameiparent then do
        iput ip
        pure none
      else pure (some (ip, []))
    | some (name, rest) => do
      ilock ip
      let inode ← inodeAt ip
      if inode.type ≠ T_DIR then do
        iunlockput ip
        pure none
      else if nameiparent = true ∧ rest = [] then do
        iunlock ip
        pure (some (ip, name))
      else do
        let next ← dirlookup ip name
        match next with
        | none => do
          iunlockput ip
          pure none
        | some (next, _) => do
          iunlockput ip
          namexFrom nameiparent count next rest

def startInode (path : List Byte) : FsM Slot := do
  let state ← visible
  if path.head? = some slash then iget ROOTINO else idup state.cwd

/-- Look up the inode for a path name, or its parent. -/
def namex (path : List Byte) (nameiparent : Bool) : FsM (Option (Slot × List Byte)) := do
  let ip ← startInode path
  namexFrom nameiparent (path.length + 1) ip path

def namei (path : List Byte) : FsM (Option Slot) := do
  let found ← namex path false
  pure (found.map (·.1))

def nameiparent (path : List Byte) : FsM (Option (Slot × List Byte)) := namex path true

/-! ## System calls -/

def linkDots (ip dp : Slot) : FsM Unit := do
  let parent ← inodeAt dp
  setInode dp { parent with nlink := (parent.nlink + 1) % 2 ^ 16 }
  iupdate dp
  let inode ← inodeAt ip
  let self ← dirlink ip [46] inode.inum
  if self < 0 then kernelPanic "create dots"
  else do
    let up ← dirlink ip [46, 46] parent.inum
    if up < 0 then kernelPanic "create dots" else pure ()

/-- The part of `create` that makes a new inode and links it into `dp`. -/
def createNew (dp : Slot) (name : List Byte) (type major minor : Nat) : FsM (Option Slot) := do
  let ip ← ialloc type
  ilock ip
  let inode ← inodeAt ip
  setInode ip { inode with major := major, minor := minor, nlink := 1 }
  iupdate ip
  onlyIf (type = T_DIR) (linkDots ip dp)
  let r ← dirlink dp name inode.inum
  if r < 0 then kernelPanic "create: dirlink"
  else do
    iunlockput dp
    pure (some ip)

def create (path : List Byte) (type major minor : Nat) : FsM (Option Slot) := do
  let parent ← nameiparent path
  match parent with
  | none => pure none
  | some (dp, name) => do
    ilock dp
    let present ← dirlookup dp name
    match present with
    | some (ip, _) => do
      iunlockput dp
      ilock ip
      let inode ← inodeAt ip
      if type = T_FILE ∧ inode.type = T_FILE then pure (some ip)
      else do
        iunlockput ip
        pure none
    | none => createNew dp name type major minor

/-- The inode that `fileopen` opens, locked. -/
def openInode (path : List Byte) (omode : Nat) : FsM (Option Slot) :=
  if omode &&& O_CREATE ≠ 0 then do
    begin_trans
    let ip ← create path T_FILE 0 0
    commit_trans
    pure ip
  else do
    let found ← namei path
    match found with
    | none => pure none
    | some ip => do
      ilock ip
      let inode ← inodeAt ip
      if inode.type = T_DIR ∧ omode ≠ O_RDONLY then do
        iunlockput ip
        pure none
      else pure (some ip)

/-- Whether the entries of `dp` from `off` on are all free. -/
def isdiremptyFrom (dp : Slot) : (count off : Nat) → FsM Bool
  | 0, _ => pure true
  | count + 1, off => do
    let inode ← inodeAt dp
    if inode.size ≤ off then pure true
    else do
      let de ← readDirent dp off "isdirempty: readi"
      if de.inum ≠ 0 then pure false else isdiremptyFrom dp count (off + 16)

/-- Is the directory `dp` empty except for "." and ".."? -/
def isdirempty (dp : Slot) : FsM Bool := do
  let inode ← inodeAt dp
  isdiremptyFrom dp (inode.size / 16 + 1) 32

/-- Whether `sys_unlink` may remove the inode: a directory must be empty. -/
def removable (ip : Slot) : FsM Bool := do
  let inode ← inodeAt ip
  if inode.type = T_DIR then isdirempty ip else pure true

/-- The part of `sys_unlink` that removes the entry at `off`. -/
def unlinkEntry (dp ip : Slot) (off : Nat) : FsM Int := do
  let de : Dirent := {}
  let r ← writei dp de.byteAt off 16
  if r ≠ 16 then kernelPanic "unlink: writei"
  else do
    let inode ← inodeAt ip
    onlyIf (inode.type = T_DIR) do
      let parent ← inodeAt dp
      setInode dp { parent with nlink := (parent.nlink + 2 ^ 16 - 1) % 2 ^ 16 }
      iupdate dp
    iunlockput dp
    let inode ← inodeAt ip
    setInode ip { inode with nlink := (inode.nlink + 2 ^ 16 - 1) % 2 ^ 16 }
    iupdate ip
    iunlockput ip
    commit_trans
    pure 0

def unlinkBad (dp : Slot) : FsM Int := do
  iunlockput dp
  commit_trans
  pure (-1)

def sys_unlink (path : List Byte) : FsM Int := do
  let parent ← nameiparent path
  match parent with
  | none => pure (-1)
  | some (dp, name) => do
    begin_trans
    ilock dp
    if namecmp (cstring name) (cstring [46]) = 0 ∨ namecmp (cstring name) (cstring [46, 46]) = 0
    then unlinkBad dp
    else do
      let found ← dirlookup dp name
      match found with
      | none => unlinkBad dp
      | some (ip, off) => do
        ilock ip
        let inode ← inodeAt ip
        -- nlink is a signed short
        if inode.nlink = 0 ∨ 2 ^ 15 ≤ inode.nlink then kernelPanic "unlink: nlink < 1"
        else do
          let empty ← removable ip
          if empty then unlinkEntry dp ip off
          else do
            iunlockput ip
            unlinkBad dp

end Xv6Dedup
