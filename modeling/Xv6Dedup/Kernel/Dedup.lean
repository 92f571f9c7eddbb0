import Xv6Dedup.Kernel.Inodes

/-!
# Deduplication

`dedup` and its helpers from `file.c`, and the inode cursors it uses from
`fs.c`. The indirect-table pointers `a` and `b` of the source are the optional
buffers they point into; like the source's variables they outlive the files
they were set for.
-/

set_option autoImplicit false

namespace Xv6Dedup

open Program

/-- Look for the next file inode among `count` inodes from `inum` on. -/
def getNextFrom : (count inum : Nat) → FsM (Option Slot)
  | 0, _ => pure none
  | count + 1, inum => do
    let bp ← bread (IBLOCK inum)
    let data ← bdata bp
    if (dinodeAt data (inum % IPB)).type = T_FILE then do
      change fun state => { state with nextInum := inum }
      let ip ← iget inum
      brelse bp
      pure (some ip)
    else do
      brelse bp
      getNextFrom count (inum + 1)

def getNextInode : FsM (Option Slot) := do
  let sb ← readsb
  let state ← visible
  getNextFrom (sb.ninodes - (state.nextInum + 1)) (state.nextInum + 1)

/-- The next file inode downwards from `prevInum`, and the new `prevInum`. -/
def getPrevInode : (prevInum : Nat) → FsM (Option Slot × Nat)
  | 0 => pure (none, 0)
  | prevInum + 1 => do
    let state ← visible
    if state.nextInum < prevInum + 1 then do
      let bp ← bread (IBLOCK (prevInum + 1))
      let data ← bdata bp
      if (dinodeAt data ((prevInum + 1) % IPB)).type = T_FILE then do
        let ip ← iget (prevInum + 1)
        brelse bp
        pure (some ip, prevInum)
      else do
        brelse bp
        getPrevInode prevInum
    else pure (none, prevInum + 1)

def zeroNextInum : FsM Unit := change fun state => { state with nextInum := 0 }

/-- The word `ip->addrs[index]`. Past the end of the array C reads whatever
memory follows, and the subscript is recorded. -/
def addrsAt (ip : Slot) (index : Nat) : FsM Nat := do
  let inode ← inodeAt ip
  if index < NDIRECT + 1 then pure (inode.addr index)
  else do
    let memo ← remembered
    remember fun memo =>
      { memo with garbage := memo.garbage.tail, overruns := memo.overruns ++ [index] }
    pure (memo.garbage.headD 0)

/-- The entry `table[index]` of an indirect block held in a buffer. -/
def tableAt (table index : Nat) : FsM Nat := do
  let data ← bdata table
  pure (entryAt data index)

def blkcmp (b1 b2 : Nat) : FsM Bool := do
  let data1 ← bdata b1
  let data2 ← bdata b2
  pure (firstFrom (fun i => data1.get i != data2.get i) BSIZE 0).isNone

/-- A pointer of `ip`: an entry of the table if one is given, else of `addrs`. -/
def pointerAt (ip : Slot) (table : Option Nat) (index : Nat) : FsM Nat :=
  match table with
  | none => addrsAt ip index
  | some table => tableAt table index

/-- Overwrite a pointer of `ip` and record which kind was changed. -/
def setPointer (ip : Slot) (table : Option Nat) (index value : Nat) : FsM Unit :=
  match table with
  | none =>
    change fun state => { state.setInode ip ((state.icache ip).setAddr index value) with
      directChanged := true }
  | some table => do
    let data ← bdata table
    bset table (putEntry data index value)
    change fun state => { state with indirectChanged := true }

/-- Redirect the pointer of block `b1` to block `b2` and give `b1` up. -/
def deletedups (ip1 ip2 : Slot) (b1 b2 b1Index b2Index : Nat) (a b : Option Nat) : FsM Unit := do
  let shared ← pointerAt ip2 b b2Index
  setPointer ip1 a b1Index shared
  updateBlkRef b2 1
  let ref ← getBlkRef b1
  if 0 < ref then updateBlkRef b1 (-1)
  else do
    begin_trans
    bfree b1
    commit_trans

/-- Share block `b1` with the candidate `b2` when their contents agree; the
candidate is released, and on success `b1` too. -/
def shareIfEqual (ip1 ip2 : Slot) (b1 b2 b1Index b2Index : Nat) (a b : Option Nat) : FsM Bool := do
  let same ← blkcmp b1 b2
  if same then do
    deletedups ip1 ip2 b1 b2 b1Index b2Index a b
    brelse b1
    brelse b2
    pure true
  else do
    brelse b2
    pure false

/-- One round of the same-file scan for the direct block `blockIndex1`. -/
def sameFileDirect (ip1 : Slot) (a : Option Nat) (b1 blockIndex1 blockIndex2 : Nat) : FsM Bool := do
  let addr1 ← addrsAt ip1 blockIndex1
  if blockIndex2 < NDIRECT then do
    let addr2 ← addrsAt ip1 blockIndex2
    if addr1 ≠ 0 ∧ addr2 ≠ 0 ∧ addr1 ≠ addr2 then do
      let b2 ← bread addr2
      shareIfEqual ip1 ip1 b1 b2 blockIndex1 blockIndex2 none none
    else pure false
  else
    match a with
    | none => pure false
    | some table => do
      let addr2 ← tableAt table (blockIndex2 - NDIRECT)
      if addr1 ≠ 0 ∧ addr2 ≠ 0 ∧ addr1 ≠ addr2 then do
        let b2 ← bread addr2
        shareIfEqual ip1 ip1 b1 b2 blockIndex1 (blockIndex2 - NDIRECT) none (some table)
      else pure false

/-- One round of the same-file scan for the indirect entry `offset1`. -/
def sameFileIndirect (ip1 : Slot) (table b1 offset1 blockIndex2 : Nat) : FsM Bool := do
  let addr2 ← tableAt table blockIndex2
  let addr1 ← tableAt table offset1
  if addr2 ≠ 0 ∧ addr2 ≠ addr1 then do
    let b2 ← bread addr2
    shareIfEqual ip1 ip1 b1 b2 offset1 blockIndex2 (some table) (some table)
  else pure false

/-- The test that skips candidates already shared with `b1`. It compares with
`ip1->addrs[index1]` even when `index1` counts entries of the indirect table. -/
def sameBlock (ip1 : Slot) (aSub : Option Nat) (index1 addr2 : Nat) : FsM Bool :=
  match aSub with
  | none => do
    let entry ← addrsAt ip1 index1
    pure (decide (addr2 = entry))
  | some table => do
    let entry ← tableAt table index1
    if addr2 = entry then pure true
    else do
      let entry ← addrsAt ip1 index1
      pure (decide (addr2 = entry))

/-- One round of the scan of another file `ip2`. -/
def crossFileRound (ip1 ip2 : Slot) (aSub b : Option Nat) (b1 index1 blockIndex2 : Nat) : FsM Bool :=
  if blockIndex2 < NDIRECT then do
    let addr2 ← addrsAt ip2 blockIndex2
    let skip ← sameBlock ip1 aSub index1 addr2
    if skip then pure false
    else if addr2 = 0 then pure false
    else do
      let b2 ← bread addr2
      shareIfEqual ip1 ip2 b1 b2 index1 blockIndex2 aSub none
  else
    match b with
    | none => pure false
    | some table => do
      let addr2 ← tableAt table (blockIndex2 - NDIRECT)
      let skip ← sameBlock ip1 aSub index1 addr2
      if skip then pure false
      else if addr2 = 0 then pure false
      else do
        let b2 ← bread addr2
        shareIfEqual ip1 ip2 b1 b2 index1 (blockIndex2 - NDIRECT) aSub (some table)

/-- Load the indirect table of a locked inode, if it has one: the table pointer,
kept from before when there is none, and the number of its entries. -/
def loadTable (ip : Slot) (previous : Option Nat) : FsM (Option Nat × Nat) := do
  let inode ← inodeAt ip
  if inode.addr NDIRECT = 0 then pure (previous, 0)
  else do
    let bp ← bread (inode.addr NDIRECT)
    pure (some bp, NINDIRECT)

/-- Release the indirect table of a locked inode, if it has one. -/
def releaseTable (ip : Slot) (table : Option Nat) : FsM Unit := do
  let inode ← inodeAt ip
  if inode.addr NDIRECT = 0 then pure ()
  else
    match table with
    | none => throw (.undefined "dedup: no indirect table")
    | some bp => brelse bp

/-- The scan of the other file `ip2`: whether `b1` was shared, and the table
pointer `b`. -/
def crossFile (ip1 ip2 : Slot) (aSub : Option Nat) (b1 index1 : Nat) (b : Option Nat) :
    FsM (Bool × Option Nat) := do
  ilock ip2
  let (b, indirects2) ← loadTable ip2 b
  let found ← searchDown (crossFileRound ip1 ip2 aSub b b1 index1) 0 (NDIRECT + indirects2)
  releaseTable ip2 b
  iunlockput ip2
  pure (found, b)

/-- The scan of the other files, at most `count` of them from `prevInum` down:
whether `b1` was shared, and the table pointer `b`. -/
def crossFiles (ip1 : Slot) (aSub : Option Nat) (b1 index1 : Nat) :
    (count prevInum : Nat) → (b : Option Nat) → FsM (Bool × Option Nat)
  | 0, _, b => pure (false, b)
  | count + 1, prevInum, b => do
    let (next, prevInum) ← getPrevInode prevInum
    match next with
    | none => pure (false, b)
    | some ip2 => do
      let (found, b) ← crossFile ip1 ip2 aSub b1 index1 b
      if found then pure (true, b)
      else crossFiles ip1 aSub b1 index1 count prevInum b

/-- The part of the block loop after the same-file scan. -/
def finishBlock (ip1 : Slot) (ninodes : Nat) (aSub : Option Nat) (b1 index1 : Nat)
    (found : Bool) (b : Option Nat) : FsM (Option Nat) :=
  if found then pure b
  else do
    let (found, b) ← crossFiles ip1 aSub b1 index1 ninodes (ninodes - 1) b
    if found then pure b
    else do
      brelse b1
      pure b

/-- The body of the block loop for block `blockIndex1` of `ip1`. -/
def dedupBlock (ip1 : Slot) (ninodes indirects1 : Nat) (a : Option Nat) (blockIndex1 : Nat)
    (b : Option Nat) : FsM (Option Nat) :=
  if blockIndex1 < NDIRECT then do
    let addr1 ← addrsAt ip1 blockIndex1
    if addr1 = 0 then pure b
    else do
      let b1 ← bread addr1
      let found ← searchDown (sameFileDirect ip1 a b1 blockIndex1) (blockIndex1 + 1)
        (NDIRECT + indirects1 - (blockIndex1 + 1))
      finishBlock ip1 ninodes none b1 blockIndex1 found b
  else
    match a with
    | none => throw (.undefined "dedup: no indirect table")
    | some table => do
      let addr1 ← tableAt table (blockIndex1 - NDIRECT)
      if addr1 = 0 then pure b
      else do
        let b1 ← bread addr1
        let found ← searchDown (sameFileIndirect ip1 table b1 (blockIndex1 - NDIRECT))
          (blockIndex1 - NDIRECT + 1) (NINDIRECT - (blockIndex1 - NDIRECT + 1))
        finishBlock ip1 ninodes (some table) b1 (blockIndex1 - NDIRECT) found b

/-- The block loop of one file, `count` blocks from `blockIndex1` on. -/
def dedupBlocks (ip1 : Slot) (ninodes indirects1 : Nat) (a : Option Nat) :
    (count blockIndex1 : Nat) → (b : Option Nat) → FsM (Option Nat)
  | 0, _, b => pure b
  | count + 1, blockIndex1, b => do
    let b ← dedupBlock ip1 ninodes indirects1 a blockIndex1 b
    dedupBlocks ip1 ninodes indirects1 a count (blockIndex1 + 1) b

/-- Write and release the indirect table of `ip1`. -/
def writeBackTable (ip1 : Slot) (a : Option Nat) : FsM Unit := do
  let inode ← inodeAt ip1
  if inode.addr NDIRECT = 0 then pure ()
  else
    match a with
    | none => throw (.undefined "dedup: no indirect table")
    | some bp1 => do
      let state ← visible
      onlyIf (state.indirectChanged = true) (bwrite bp1)
      brelse bp1

/-- Write back what the block loop changed in `ip1`. -/
def writeBack (ip1 : Slot) (a : Option Nat) : FsM Unit := do
  writeBackTable ip1 a
  let state ← visible
  onlyIf (state.directChanged = true) do
    begin_trans
    iupdate ip1
    commit_trans

def dedupFile (ip1 : Slot) (ninodes : Nat) (a b : Option Nat) : FsM (Option Nat × Option Nat) := do
  change fun state => { state with directChanged := false, indirectChanged := false }
  ilock ip1
  let (a, indirects1) ← loadTable ip1 a
  let b ← dedupBlocks ip1 ninodes indirects1 a (NDIRECT + indirects1) 0 b
  writeBack ip1 a
  iunlockput ip1
  pure (a, b)

/-- The file loop, at most `count` more files. -/
def dedupFiles (ninodes : Nat) : (count : Nat) → (a b : Option Nat) → FsM Unit
  | 0, _, _ => pure ()
  | count + 1, a, b => do
    let next ← getNextInode
    match next with
    | none => pure ()
    | some ip1 => do
      let (a, b) ← dedupFile ip1 ninodes a b
      dedupFiles ninodes count a b

def dedup : FsM Unit := do
  let sb ← readsb
  zeroNextInum
  dedupFiles sb.ninodes sb.ninodes none none

end Xv6Dedup
