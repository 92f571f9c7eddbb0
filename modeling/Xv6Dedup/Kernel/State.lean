import Mathlib.Algebra.GroupWithZero.Nat
import Xv6Dedup.Base.Bytes
import Xv6Dedup.Base.Program

/-!
# Kernel state

The on-disk structures of `fs.h` and the kernel data of `buf.h`, `file.h`,
`log.c`, `fs.c` and `file.c` that the file system reads and writes. There is
one device, `ROOTDEV`, so device numbers are left out.
-/

set_option autoImplicit false

namespace Xv6Dedup

open Function

abbrev BSIZE : Nat := 512
abbrev NDIRECT : Nat := 12
abbrev NINDIRECT : Nat := BSIZE / 4
abbrev MAXFILE : Nat := NDIRECT + NINDIRECT
abbrev IPB : Nat := BSIZE / 64
abbrev BPB : Nat := BSIZE * 8
abbrev DIRSIZ : Nat := 14
abbrev ROOTINO : Nat := 1
abbrev NFILE : Nat := 100
abbrev NINODE : Nat := 50
abbrev NDEV : Nat := 10
abbrev LOGSIZE : Nat := 10
abbrev T_DIR : Nat := 1
abbrev T_FILE : Nat := 2
abbrev T_DEV : Nat := 3
abbrev O_RDONLY : Nat := 0x000
abbrev O_WRONLY : Nat := 0x001
abbrev O_RDWR : Nat := 0x002
abbrev O_CREATE : Nat := 0x200

/-- Block containing inode `inum`. -/
abbrev IBLOCK (inum : Nat) : Nat := inum / IPB + 2

/-- Block containing the bitmap bit for sector `b`. -/
abbrev BBLOCK (b ninodes : Nat) : Nat := b / BPB + ninodes / IPB + 3

abbrev Block := Bytes BSIZE

/-! ## On-disk structures -/

/-- File system super block. -/
structure Superblock where
  size : Nat
  nblocks : Nat
  ninodes : Nat
  nlog : Nat
  refCount1 : Nat
  refCount2 : Nat
  deriving DecidableEq, Repr

def superblockOf (block : Block) : Superblock where
  size := block.word 0
  nblocks := block.word 4
  ninodes := block.word 8
  nlog := block.word 12
  refCount1 := block.word 16
  refCount2 := block.word 20

/-- On-disk inode structure. -/
structure Dinode where
  type : Nat := 0
  major : Nat := 0
  minor : Nat := 0
  nlink : Nat := 0
  size : Nat := 0
  addrs : Fin (NDIRECT + 1) → Nat := fun _ => 0

namespace Dinode

/-- Entry `index` of `addrs`; entries past the end read as zero. -/
def addr (inode : Dinode) (index : Nat) : Nat :=
  if bounded : index < NDIRECT + 1 then inode.addrs ⟨index, bounded⟩ else 0

def setAddr (inode : Dinode) (index value : Nat) : Dinode :=
  { inode with addrs := fun entry => if entry.val = index then value else inode.addrs entry }

/-- Byte `offset` of the 64-byte on-disk representation. -/
def byteAt (inode : Dinode) (offset : Nat) : Byte :=
  if offset < 2 then Bytes.leByte inode.type offset
  else if offset < 4 then Bytes.leByte inode.major (offset - 2)
  else if offset < 6 then Bytes.leByte inode.minor (offset - 4)
  else if offset < 8 then Bytes.leByte inode.nlink (offset - 6)
  else if offset < 12 then Bytes.leByte inode.size (offset - 8)
  else Bytes.leByte (inode.addr ((offset - 12) / 4)) ((offset - 12) % 4)

end Dinode

/-- The inode at position `index` of an inode block. -/
def dinodeAt (block : Block) (index : Nat) : Dinode where
  type := block.half (64 * index)
  major := block.half (64 * index + 2)
  minor := block.half (64 * index + 4)
  nlink := block.half (64 * index + 6)
  size := block.word (64 * index + 8)
  addrs := fun entry => block.word (64 * index + 12 + 4 * entry.val)

def putDinode (block : Block) (index : Nat) (inode : Dinode) : Block :=
  block.splice (64 * index) 64 inode.byteAt

/-- Entry `index` of a block used as an indirect table. -/
def entryAt (block : Block) (index : Nat) : Nat := block.word (4 * index)

def putEntry (block : Block) (index value : Nat) : Block := block.putWord (4 * index) value

/-! ## Kernel data -/

/-- A cached sector. A sector that is not cached is represented by a clean
buffer that holds the disk's contents, which is what `bread` would load. -/
structure Buf where
  data : Block
  busy : Bool := false
  dirty : Bool := false

/-- `struct log`; `sectors` is `lh.sector[0..lh.n)`. -/
structure Log where
  start : Nat := 0
  size : Nat := 0
  busy : Bool := false
  sectors : List Nat := []
  deriving DecidableEq, Repr

structure Inode extends Dinode where
  inum : Nat := 0
  ref : Int := 0
  busy : Bool := false
  valid : Bool := false

/-- An index into `icache.inode`, the model of a `struct inode` pointer. -/
abbrev Slot := Fin NINODE

instance : NeZero NINODE := ⟨nofun⟩

inductive FdType where
  | none | pipe | inode
  deriving DecidableEq, Repr

structure File where
  type : FdType := .none
  ref : Int := 0
  readable : Bool := false
  writable : Bool := false
  pipe : Nat := 0
  ip : Slot := 0
  off : Nat := 0

structure Pipe where
  nread : Nat := 0
  nwrite : Nat := 0
  readopen : Bool := true
  writeopen : Bool := true
  deriving DecidableEq

/-- Device and pipe code called from `readi`, `writei` and `filewrite`. -/
structure Drivers where
  read : Nat → Option (Nat → Int × List Byte) := fun _ => none
  write : Nat → Option ((Nat → Byte) → Nat → Int) := fun _ => none
  pipewrite : Nat → (Nat → Byte) → Int → Int := fun _ _ _ => -1

structure State where
  disk : Nat → Block
  buf : Nat → Buf
  log : Log := {}
  icache : Slot → Inode := fun _ => {}
  ftable : Fin NFILE → File := fun _ => {}
  /-- The pages that hold pipes. -/
  pipes : Nat → Option Pipe := fun _ => none
  cwd : Slot := 0
  nextInum : Nat := 0
  directChanged : Bool := false
  indirectChanged : Bool := false
  drivers : Drivers := {}
  /-- The sector writes issued so far, oldest first. -/
  trace : List (Nat × Block) := []

/-- What results may not depend on: which clean buffers `bget` recycles, the
memory that follows an `addrs` array, and the superblock fields cached by
`getRefCount`. `overruns` records the subscripts past the end of `addrs`. -/
structure Memo where
  recycle : List (List Nat) := []
  garbage : List Nat := []
  refCount1 : Nat := 0
  refCount2 : Nat := 0
  overruns : List Nat := []

/-- Why the kernel stops: a panic, a sleep that only another process can end,
or a use of memory that C leaves undefined. -/
inductive Stop where
  | panic (message : String)
  | blocked
  | undefined (what : String)
  deriving DecidableEq, Repr

abbrev FsM := Program Stop State Memo

def State.setBuf (state : State) (sector : Nat) (buffer : Buf) : State :=
  { state with buf := update state.buf sector buffer }

def State.setInode (state : State) (slot : Slot) (inode : Inode) : State :=
  { state with icache := update state.icache slot inode }

def State.setFile (state : State) (file : Fin NFILE) (value : File) : State :=
  { state with ftable := update state.ftable file value }

def kernelPanic {α : Type} (message : String) : FsM α := throw (.panic message)

end Xv6Dedup
