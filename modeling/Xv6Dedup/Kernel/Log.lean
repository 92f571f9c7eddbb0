import Xv6Dedup.Kernel.Bio

/-!
# The log

`log.c`: a physical redo log that holds at most one transaction. The header
block stores the number of logged sectors followed by their numbers, block
`log.start + 1 + i` the new contents of the `i`-th logged sector.
-/

set_option autoImplicit false

namespace Xv6Dedup

open Program

def headSectors (block : Block) : List Nat :=
  (List.range (block.word 0)).map fun index => block.word (4 + 4 * index)

/-- Store the sector numbers from position `index` on. -/
def putSectors (block : Block) (index : Nat) : List Nat → Block
  | [] => block
  | sector :: rest => putSectors (block.putWord (4 + 4 * index) sector) (index + 1) rest

/-- The header block after `write_head`; entries past `n` keep their old values. -/
def putHead (block : Block) (sectors : List Nat) : Block :=
  putSectors (block.putWord 0 sectors.length) 0 sectors

def readsb : FsM Superblock := do
  let bp ← bread 1
  let data ← bdata bp
  brelse bp
  pure (superblockOf data)

/-- Copy committed blocks from the log to their home location, from log
position `tail` on. -/
def installFrom (start : Nat) : (tail : Nat) → List Nat → FsM Unit
  | _, [] => pure ()
  | tail, sector :: rest => do
    let lbuf ← bread (start + tail + 1)
    let dbuf ← bread sector
    bset dbuf (← bdata lbuf)
    bwrite dbuf
    brelse lbuf
    brelse dbuf
    installFrom start (tail + 1) rest

def install_trans : FsM Unit := do
  let state ← visible
  installFrom state.log.start 0 state.log.sectors

/-- Read the log header from disk into the in-memory log header. -/
def read_head : FsM Unit := do
  let state ← visible
  let buf ← bread state.log.start
  let data ← bdata buf
  change fun state => { state with log := { state.log with sectors := headSectors data } }
  brelse buf

/-- Write the in-memory log header to disk: the point at which the current
transaction commits. -/
def write_head : FsM Unit := do
  let state ← visible
  let buf ← bread state.log.start
  let data ← bdata buf
  bset buf (putHead data state.log.sectors)
  bwrite buf
  brelse buf

def clearHead : FsM Unit :=
  change fun state => { state with log := { state.log with sectors := [] } }

def recover_from_log : FsM Unit := do
  read_head
  install_trans
  clearHead
  write_head

def initlog : FsM Unit := do
  let sb ← readsb
  change fun state =>
    { state with log := { state.log with start := sb.size - sb.nlog, size := sb.nlog } }
  recover_from_log

def begin_trans : FsM Unit := do
  let state ← visible
  if state.log.busy then throw .blocked
  else change fun state => { state with log := { state.log with busy := true } }

def commit_trans : FsM Unit := do
  let state ← visible
  onlyIf (0 < state.log.sectors.length) do
    write_head
    install_trans
    clearHead
    write_head
  change fun state => { state with log := { state.log with busy := false } }

/-- Append the block to the log, reusing the slot of a block logged before. -/
def log_write (b : Nat) : FsM Unit := do
  let state ← visible
  if LOGSIZE ≤ state.log.sectors.length ∨ state.log.size - 1 ≤ state.log.sectors.length then
    kernelPanic "too big a transaction"
  else if state.log.busy = false then
    kernelPanic "write outside of trans"
  else do
    let index := state.log.sectors.idxOf b
    let lbuf ← bread (state.log.start + index + 1)
    bset lbuf (← bdata b)
    bwrite lbuf
    brelse lbuf
    change fun state => { state with log := { state.log with
      sectors := if index = state.log.sectors.length then state.log.sectors ++ [b]
        else state.log.sectors } }
    change fun state => state.setBuf b { state.buf b with dirty := true }

end Xv6Dedup
