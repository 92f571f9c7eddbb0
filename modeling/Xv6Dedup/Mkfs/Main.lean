import Xv6Dedup.Kernel.Image

/-!
# mkfs

`mkfs.c`: the program that lays out a file system with the given files in its
root directory. `xshort` and `xint` only choose the byte order of what is
stored, which `putDinode`, `putEntry` and `superBlock` do here. Seeking and
writing succeed; a read past the end of the image file fails.
-/

set_option autoImplicit false

namespace Xv6Dedup.Mkfs

open Program

abbrev nblocks : Nat := 985
abbrev nlog : Nat := LOGSIZE
abbrev ninodes : Nat := 200
abbrev size : Nat := 1026

/-- The image file and the globals. What `ialloc` returned and which sectors
`iappend` wrote is recorded. -/
structure Build where
  disk : Blocks := fun _ => Bytes.zero
  /-- The length of the image file in sectors. -/
  sectors : Nat := 0
  freeblock : Nat := 0
  usedblocks : Nat := 0
  freeinode : Nat := 1
  inums : List Nat := []
  appended : List Nat := []

/-- How `mkfs` ends when it does not exit with status 0. -/
inductive Failure where
  | exit (status : Nat)
  | assert (condition : String)
  deriving DecidableEq, Repr

abbrev MkfsM := Program Failure Build Unit

/-! ## Sectors and inodes -/

def wsect (sec : Nat) (buf : Block) : MkfsM Unit :=
  change fun build => { build with
    disk := Function.update build.disk sec buf
    sectors := max build.sectors (sec + 1) }

def rsect (sec : Nat) : MkfsM Block := do
  let build ← visible
  if sec < build.sectors then pure (build.disk sec) else throw (.exit 1)

def i2b (inum : Nat) : Nat := inum / IPB + 2

def winode (inum : Nat) (ip : Dinode) : MkfsM Unit := do
  let buf ← rsect (i2b inum)
  wsect (i2b inum) (putDinode buf (inum % IPB) ip)

def rinode (inum : Nat) : MkfsM Dinode := do
  let buf ← rsect (i2b inum)
  pure (dinodeAt buf (inum % IPB))

def ialloc (type : Nat) : MkfsM Nat := do
  let build ← visible
  change fun build => { build with
    freeinode := build.freeinode + 1
    inums := build.inums ++ [build.freeinode] }
  winode build.freeinode { type := type, nlink := 1 }
  pure build.freeinode

/-- Write the bitmap block: the first `used` sectors are in use. -/
def balloc (used : Nat) : MkfsM Unit :=
  if used < 512 * 8 then wsect (ninodes / IPB + 3) (bitmapBlock (List.range used))
  else throw (.assert "used < 512*8")

/-- `freeblock++`. -/
def takeBlock : MkfsM Nat := do
  let build ← visible
  change fun build => { build with
    freeblock := build.freeblock + 1
    usedblocks := build.usedblocks + 1 }
  pure build.freeblock

/-- A `wsect` of `iappend`. -/
def wappend (sec : Nat) (buf : Block) : MkfsM Unit := do
  wsect sec buf
  change fun build => { build with appended := build.appended ++ [sec] }

/-- Entry `index` of `din.addrs`, allocated if it is zero. -/
def appendAddr (din : Dinode) (index : Nat) : MkfsM Dinode :=
  if din.addr index = 0 then do
    let block ← takeBlock
    pure (din.setAddr index block)
  else pure din

/-- The sector of block `fbn`, allocated if there is none, and the inode with it. -/
def appendSector (din : Dinode) (fbn : Nat) : MkfsM (Dinode × Nat) := do
  if fbn < NDIRECT then do
    let din ← appendAddr din fbn
    pure (din, din.addr fbn)
  else do
    let din ← appendAddr din NDIRECT
    let indirect ← rsect (din.addr NDIRECT)
    if entryAt indirect (fbn - NDIRECT) = 0 then do
      let block ← takeBlock
      wappend (din.addr NDIRECT) (putEntry indirect (fbn - NDIRECT) block)
      pure (din, block)
    else pure (din, entryAt indirect (fbn - NDIRECT))

/-- The loop of `iappend`, at most `count` more rounds, with `tot` bytes done. -/
def iappendLoop (p : Nat → Byte) : (count tot : Nat) → Dinode → (off n : Nat) → MkfsM (Dinode × Nat)
  | 0, _, din, off, _ => pure (din, off)
  | count + 1, tot, din, off, n =>
    if n = 0 then pure (din, off)
    else if off / 512 < MAXFILE then do
      let (din, x) ← appendSector din (off / 512)
      let n1 := min n ((off / 512 + 1) * 512 - off)
      let buf ← rsect x
      wappend x (buf.splice (off - off / 512 * 512) n1 fun k => p (tot + k))
      iappendLoop p count (tot + n1) din (off + n1) (n - n1)
    else throw (.assert "fbn < MAXFILE")

def iappend (inum : Nat) (p : Nat → Byte) (n : Nat) : MkfsM Unit := do
  let din ← rinode inum
  let (din, off) ← iappendLoop p n 0 din din.size n
  winode inum { din with size := off }

/-! ## The program -/

/-- The bytes of one `read` into a buffer of 512 bytes. -/
abbrev Piece := { bytes : List Byte // bytes ≠ [] ∧ bytes.length ≤ 512 }

/-- An argument of the program: the file's name, and what reading it returns if
it can be opened. -/
structure InputFile where
  name : List Byte
  noNul : 0 ∉ name
  reads : Option (List Piece)

def underscore : Byte := 95

/-- The name in the file system: a leading underscore is skipped. -/
def InputFile.target (file : InputFile) : List Byte :=
  if file.name.head? = some underscore then file.name.tail else file.name

/-- The directory entry for an inode; `strncpy` pads the name with zeroes. -/
def direntOf (inum : Nat) (name : List Byte) : Dirent :=
  { inum := inum % 2 ^ 16, name := cstring (name.take DIRSIZ) }

def appendPieces (inum : Nat) : List Piece → MkfsM Unit
  | [] => pure ()
  | piece :: rest => do
    iappend inum (cstring piece.val) piece.val.length
    appendPieces inum rest

def addFile (rootino : Nat) (file : InputFile) : MkfsM Unit :=
  if slash ∈ file.name then throw (.assert "index(argv[i], '/') == 0")
  else
    match file.reads with
    | none => throw (.exit 1)
    | some pieces => do
      let inum ← ialloc T_FILE
      iappend rootino (direntOf inum file.target).byteAt 16
      appendPieces inum pieces

def addFiles (rootino : Nat) : List InputFile → MkfsM Unit
  | [] => pure ()
  | file :: rest => do
    addFile rootino file
    addFiles rootino rest

/-- Write zeroes to the sectors `start`, `start + 1`, … , `count` of them. -/
def zeroSectors : (count start : Nat) → MkfsM Unit :=
  forUp fun sec => wsect sec Bytes.zero

def bitblocks : Nat := size / (512 * 8) + 1

def format : MkfsM Unit := do
  let usedblocks := ninodes / IPB + 3 + bitblocks
  change fun build => { build with usedblocks := usedblocks + 2, freeblock := usedblocks + 2 }
  if nblocks + (usedblocks + 2) + nlog = size then do
    zeroSectors (nblocks + (usedblocks + 2) + nlog) 0
    wsect 1 (superBlock {
      size := size
      nblocks := nblocks
      ninodes := ninodes
      nlog := nlog
      refCount1 := usedblocks
      refCount2 := usedblocks + 1 })
  else throw (.assert "nblocks + usedblocks + nlog== size")

/-- Round the size of the root directory up to whole blocks. -/
def fixRoot (rootino : Nat) : MkfsM Unit := do
  let din ← rinode rootino
  winode rootino { din with size := (din.size / BSIZE + 1) * BSIZE }

def main (files : List InputFile) : MkfsM Unit := do
  format
  let rootino ← ialloc T_DIR
  if rootino = ROOTINO then do
    iappend rootino (direntOf rootino [46]).byteAt 16
    iappend rootino (direntOf rootino [46, 46]).byteAt 16
    addFiles rootino files
    fixRoot rootino
    let build ← visible
    balloc build.usedblocks
  else throw (.assert "rootino == ROOTINO")

/-- The image that `mkfs` leaves when it exits with status 0. -/
def mkfs (files : List InputFile) : Option Build :=
  match main files ({}, ()) with
  | .ok _ build => some build.1
  | .error _ _ => none

end Xv6Dedup.Mkfs
