import Xv6Dedup.Kernel.Blocks

/-!
# Inodes

The inode layer of `fs.c`: the inode cache, block maps, truncation, reading and
writing, with the copy-on-write of shared blocks in `writei`.
-/

set_option autoImplicit false

namespace Xv6Dedup

open Program

def inodeAt (ip : Slot) : FsM Inode := do
  let state ← visible
  pure (state.icache ip)

def setInode (ip : Slot) (inode : Inode) : FsM Unit :=
  change fun state => state.setInode ip inode

def Inode.setAddr (inode : Inode) (index value : Nat) : Inode :=
  { inode with toDinode := inode.toDinode.setAddr index value }

/-- The cache entry that `iget` finds for `inum`, or the empty one it recycles. -/
def State.findInode (state : State) (inum : Nat) : Option Slot :=
  (List.finRange NINODE).find? fun slot =>
    decide (0 < (state.icache slot).ref) && decide ((state.icache slot).inum = inum)

def State.emptyInode (state : State) : Option Slot :=
  (List.finRange NINODE).find? fun slot => decide ((state.icache slot).ref = 0)

/-- Find the inode with number `inum` and return the in-memory copy, without
locking it or reading it from disk. -/
def iget (inum : Nat) : FsM Slot := do
  let state ← visible
  match state.findInode inum with
  | some slot => do
    change fun state =>
      state.setInode slot { state.icache slot with ref := (state.icache slot).ref + 1 }
    pure slot
  | none =>
    match state.emptyInode with
    | none => kernelPanic "iget: no inodes"
    | some slot => do
      change fun state => state.setInode slot
        { state.icache slot with inum := inum, ref := 1, busy := false, valid := false }
      pure slot

def idup (ip : Slot) : FsM Slot := do
  change fun state => state.setInode ip { state.icache ip with ref := (state.icache ip).ref + 1 }
  pure ip

/-- Try the inodes from `inum` on, `count` of them. -/
def iallocFrom (type : Nat) : (count inum : Nat) → FsM Slot
  | 0, _ => kernelPanic "ialloc: no inodes"
  | count + 1, inum => do
    let bp ← bread (IBLOCK inum)
    let data ← bdata bp
    if (dinodeAt data (inum % IPB)).type = 0 then do
      bset bp (putDinode data (inum % IPB) { type := type })
      log_write bp
      brelse bp
      iget inum
    else do
      brelse bp
      iallocFrom type count (inum + 1)

def ialloc (type : Nat) : FsM Slot := do
  let sb ← readsb
  iallocFrom type (sb.ninodes - 1) 1

def iupdate (ip : Slot) : FsM Unit := do
  let inode ← inodeAt ip
  let bp ← bread (IBLOCK inode.inum)
  let data ← bdata bp
  bset bp (putDinode data (inode.inum % IPB) inode.toDinode)
  log_write bp
  brelse bp

/-- Lock the given inode, reading it from disk if necessary. -/
def ilock (ip : Slot) : FsM Unit := do
  let inode ← inodeAt ip
  if inode.ref < 1 then kernelPanic "ilock"
  else if inode.busy then throw .blocked
  else do
    setInode ip { inode with busy := true }
    if inode.valid then pure ()
    else do
      let bp ← bread (IBLOCK inode.inum)
      let data ← bdata bp
      let dip := dinodeAt data (inode.inum % IPB)
      brelse bp
      setInode ip { inode with toDinode := dip, busy := true, valid := true }
      if dip.type = 0 then kernelPanic "ilock: no type" else pure ()

def iunlock (ip : Slot) : FsM Unit := do
  let inode ← inodeAt ip
  if inode.busy = false ∨ inode.ref < 1 then kernelPanic "iunlock"
  else setInode ip { inode with busy := false }

/-- The block that entry `index` of `ip->addrs` names, allocated if there is none. -/
def bmapAddr (ip : Slot) (index : Nat) : FsM Nat := do
  let inode ← inodeAt ip
  if inode.addr index = 0 then do
    let addr ← balloc
    change fun state => state.setInode ip ((state.icache ip).setAddr index addr)
    pure addr
  else pure (inode.addr index)

/-- Return the disk block address of the `bn`-th block, allocating it if there
is no such block. -/
def bmap (ip : Slot) (bn : Nat) : FsM Nat :=
  if bn < NDIRECT then bmapAddr ip bn
  else if bn - NDIRECT < NINDIRECT then do
    let bp ← bread (← bmapAddr ip NDIRECT)
    let a ← bdata bp
    if entryAt a (bn - NDIRECT) = 0 then do
      let addr ← balloc
      bset bp (putEntry a (bn - NDIRECT) addr)
      log_write bp
      brelse bp
      pure addr
    else do
      brelse bp
      pure (entryAt a (bn - NDIRECT))
  else kernelPanic "bmap: out of range"

/-- Drop one pointer to a data block: lower its count, or free it. -/
def dropBlk (addr : Nat) : FsM Unit := do
  let ref ← getBlkRef addr
  if 0 < ref then updateBlkRef addr (-1) else bfree addr

/-- Drop the direct block `i`. -/
def itruncDirect (ip : Slot) (i : Nat) : FsM Unit := do
  let inode ← inodeAt ip
  if inode.addr i = 0 then pure ()
  else do
    dropBlk (inode.addr i)
    change fun state => state.setInode ip ((state.icache ip).setAddr i 0)

/-- Drop the block of entry `j` of the indirect table. -/
def itruncEntry (bp j : Nat) : FsM Unit := do
  let a ← bdata bp
  if entryAt a j = 0 then pure () else dropBlk (entryAt a j)

def itruncTable (ip : Slot) : FsM Unit := do
  let inode ← inodeAt ip
  if inode.addr NDIRECT = 0 then pure ()
  else do
    let bp ← bread (inode.addr NDIRECT)
    forUp (itruncEntry bp) NINDIRECT 0
    brelse bp
    bfree (inode.addr NDIRECT)
    change fun state => state.setInode ip ((state.icache ip).setAddr NDIRECT 0)

def itrunc (ip : Slot) : FsM Unit := do
  forUp (itruncDirect ip) NDIRECT 0
  itruncTable ip
  change fun state => state.setInode ip { state.icache ip with size := 0 }
  iupdate ip

def iputFree (ip : Slot) : FsM Unit := do
  let inode ← inodeAt ip
  if inode.busy then kernelPanic "iput busy"
  else do
    setInode ip { inode with busy := true }
    itrunc ip
    change fun state => state.setInode ip { state.icache ip with type := 0 }
    iupdate ip
    change fun state => state.setInode ip { state.icache ip with busy := false, valid := false }

/-- Drop a reference to an in-memory inode; the last reference to an inode
without links frees it on disk. -/
def iput (ip : Slot) : FsM Unit := do
  let inode ← inodeAt ip
  onlyIf (inode.ref = 1 ∧ inode.valid = true ∧ inode.nlink = 0) (iputFree ip)
  change fun state => state.setInode ip { state.icache ip with ref := (state.icache ip).ref - 1 }

def iunlockput (ip : Slot) : FsM Unit := do
  iunlock ip
  iput ip

def replaceDirect (ip : Slot) (old new i : Nat) : FsM Unit := do
  let inode ← inodeAt ip
  onlyIf (inode.addr i ≠ 0 ∧ inode.addr i = old) (setInode ip (inode.setAddr i new))

def replaceEntry (bp old new j : Nat) : FsM Unit := do
  let a ← bdata bp
  onlyIf (entryAt a j ≠ 0 ∧ entryAt a j = old) (bset bp (putEntry a j new))

/-- Redirect every block pointer of `ip` from `old` to `new`. -/
def replaceBlk (ip : Slot) (old new : Nat) : FsM Unit := do
  forUp (replaceDirect ip old new) NDIRECT 0
  let inode ← inodeAt ip
  if inode.addr NDIRECT = 0 then pure ()
  else do
    let bp ← bread (inode.addr NDIRECT)
    forUp (replaceEntry bp old new) NINDIRECT 0
    brelse bp

/-- The copying loop of `readi`, at most `count` more rounds. -/
def readLoop (ip : Slot) : (count off n : Nat) → FsM (List Byte)
  | 0, _, _ => pure []
  | count + 1, off, n =>
    if n = 0 then pure []
    else do
      let bp ← bread (← bmap ip (off / BSIZE))
      let m := min n (BSIZE - off % BSIZE)
      let data ← bdata bp
      brelse bp
      let rest ← readLoop ip count (off + m) (n - m)
      pure ((List.range m).map (fun k => data.get (off % BSIZE + k)) ++ rest)

/-- Read data from inode; the result and the bytes stored through `dst`. -/
def readi (ip : Slot) (off n : Nat) : FsM (Int × List Byte) := do
  let state ← visible
  let inode := state.icache ip
  if inode.type = T_DEV then
    match if inode.major < NDEV then state.drivers.read inode.major else none with
    | none => pure (-1, [])
    | some read => pure (read n)
  else if inode.size < off ∨ (off + n) % 2 ^ 32 < off then pure (-1, [])
  else do
    let count := if inode.size < (off + n) % 2 ^ 32 then inode.size - off else n
    let bytes ← readLoop ip count off count
    pure (count, bytes)

/-- Give the file its own copy of a shared block before it is written. -/
def copyOnWrite (ip : Slot) (bp : Nat) : FsM Nat := do
  let ref ← getBlkRef bp
  if 0 < ref then do
    updateBlkRef bp (-1)
    let tmp ← bdata bp
    brelse bp
    let new ← balloc
    replaceBlk ip bp new
    let bp ← bread new
    bset bp tmp
    pure bp
  else pure bp

/-- The copying loop of `writei`, at most `count` more rounds. -/
def writeLoop (ip : Slot) (src : Nat → Byte) : (count tot off n : Nat) → FsM Unit
  | 0, _, _, _ => pure ()
  | count + 1, tot, off, n =>
    if n ≤ tot then pure ()
    else do
      let bp ← bread (← bmap ip (off / BSIZE))
      let bp ← copyOnWrite ip bp
      let m := min (n - tot) (BSIZE - off % BSIZE)
      let data ← bdata bp
      bset bp (data.splice (off % BSIZE) m fun k => src (tot + k))
      log_write bp
      brelse bp
      writeLoop ip src count (tot + m) (off + m) n

def writei (ip : Slot) (src : Nat → Byte) (off n : Nat) : FsM Int := do
  let state ← visible
  let inode := state.icache ip
  if inode.type = T_DEV then
    match if inode.major < NDEV then state.drivers.write inode.major else none with
    | none => pure (-1)
    | some write => pure (write src n)
  else if inode.size < off ∨ (off + n) % 2 ^ 32 < off then pure (-1)
  else if MAXFILE * BSIZE < (off + n) % 2 ^ 32 then pure (-1)
  else do
    writeLoop ip src n 0 off n
    let inode ← inodeAt ip
    onlyIf (0 < n ∧ inode.size < off + n) do
      setInode ip { inode with size := off + n }
      iupdate ip
    pure n

end Xv6Dedup
