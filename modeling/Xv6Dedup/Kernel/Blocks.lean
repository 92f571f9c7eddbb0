import Xv6Dedup.Kernel.Log

/-!
# Blocks and reference counts

The block allocator of `fs.c` and the reference bytes that deduplication keeps
for each sector in two blocks outside the log.
-/

set_option autoImplicit false

namespace Xv6Dedup

open Program

def bzero (bno : Nat) : FsM Unit := do
  let bp ← bread bno
  bset bp Bytes.zero
  log_write bp
  brelse bp

/-- The first position from `start` on, among `count`, that `test` accepts. -/
def firstFrom (test : Nat → Bool) : (count start : Nat) → Option Nat
  | 0, _ => none
  | count + 1, start => if test start then some start else firstFrom test count (start + 1)

/-- The inner loop of `balloc`: the first clear bit of one bitmap block. -/
def freeBit (data : Block) (size b : Nat) : Option Nat :=
  firstFrom (fun bi => decide (b + bi < size) &&
    decide (data.get (bi / 8) &&& Bytes.mask bi = 0)) BPB 0

/-- The outer loop of `balloc`, `count` bitmap blocks from sector `b` on. -/
def ballocFrom (sb : Superblock) : (count b : Nat) → FsM Nat
  | 0, _ => kernelPanic "balloc: out of blocks"
  | count + 1, b => do
    let bp ← bread (BBLOCK b sb.ninodes)
    let data ← bdata bp
    match freeBit data sb.size b with
    | some bi => do
      bset bp (data.setBit bi)
      log_write bp
      brelse bp
      bzero (b + bi)
      pure (b + bi)
    | none => do
      brelse bp
      ballocFrom sb count (b + BPB)

def balloc : FsM Nat := do
  let sb ← readsb
  ballocFrom sb ((sb.size + BPB - 1) / BPB) 0

def bfree (b : Nat) : FsM Unit := do
  let sb ← readsb
  let bp ← bread (BBLOCK b sb.ninodes)
  let data ← bdata bp
  let bi := b % BPB
  if data.get (bi / 8) &&& Bytes.mask bi = 0 then kernelPanic "freeing free block"
  else do
    bset bp (data.clearBit bi)
    log_write bp
    brelse bp

def getRefCount (ref : Nat) : FsM Nat := do
  let memo ← remembered
  onlyIf (memo.refCount1 = 0) do
    let sb ← readsb
    remember fun memo => { memo with refCount1 := sb.refCount1, refCount2 := sb.refCount2 }
  let memo ← remembered
  if ref = 1 then pure memo.refCount1 else pure memo.refCount2

/-- The change `updateBlkRef` makes to one reference byte. -/
def bumpRef (flag : Int) (value : Byte) : Byte :=
  if flag = 1 then value + 1
  else if flag = -1 then (if value = 0 then value else value - 1)
  else value

/-- Change the byte at `position` of a reference block and write the block. -/
def updateRefByte (ref position : Nat) (flag : Int) : FsM Unit := do
  let bp ← bread (← getRefCount ref)
  let data ← bdata bp
  bset bp (data.set position (bumpRef flag (data.get position)))
  bwrite bp
  brelse bp

def updateBlkRef (sector : Nat) (flag : Int) : FsM Unit :=
  if sector < BSIZE then updateRefByte 1 sector flag
  else if sector < BSIZE * 2 then updateRefByte 2 (sector - BSIZE) flag
  else pure ()

def readRefByte (ref position : Nat) : FsM Nat := do
  let bp ← bread (← getRefCount ref)
  let data ← bdata bp
  brelse bp
  pure (data.get position).toNat

def getBlkRef (sector : Nat) : FsM Nat :=
  if sector < BSIZE then readRefByte 1 sector
  else if sector < BSIZE * 2 then readRefByte 2 (sector - BSIZE)
  -- bp is used without having been assigned
  else throw (.undefined "getBlkRef: uninitialised buffer")

end Xv6Dedup
