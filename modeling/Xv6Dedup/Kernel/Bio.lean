import Xv6Dedup.Kernel.State

/-!
# Buffer cache

`bread`, `bwrite` and `brelse` of `bio.c` over the disk transfers of `iderw`.
A buffer pointer is the sector number it was read for. On a miss `bget`
recycles some buffer that is neither busy nor dirty; which ones have been
recycled by the time of a `bread` is read off `Memo.recycle`.
-/

set_option autoImplicit false

namespace Xv6Dedup

open Program

/-- Recycled clean buffers fall back to the disk's contents. -/
def State.recycled (state : State) (victims : List Nat) : State :=
  { state with buf := fun sector =>
      if sector ∈ victims ∧ (state.buf sector).busy = false ∧ (state.buf sector).dirty = false then
        { data := state.disk sector }
      else state.buf sector }

/-- Return a busy buffer with the contents of the indicated disk sector. -/
def bread (sector : Nat) : FsM Nat := do
  let memo ← remembered
  remember fun memo => { memo with recycle := memo.recycle.tail }
  change fun state => state.recycled (memo.recycle.headD [])
  let state ← visible
  if (state.buf sector).busy then
    -- bget sleeps until the holder calls brelse
    throw .blocked
  else do
    change fun state => state.setBuf sector { state.buf sector with busy := true }
    pure sector

/-- Read `b->data`; the buffer must be held. -/
def bdata (b : Nat) : FsM Block := do
  let state ← visible
  if (state.buf b).busy then pure (state.buf b).data
  else throw (.undefined "buffer used after brelse")

/-- Overwrite `b->data`; the buffer must be held. -/
def bset (b : Nat) (data : Block) : FsM Unit := do
  let state ← visible
  if (state.buf b).busy then
    change fun state => state.setBuf b { state.buf b with data := data }
  else throw (.undefined "buffer used after brelse")

/-- The write of `iderw`: the sector takes the buffer's contents. -/
def State.diskWrite (state : State) (b : Nat) : State :=
  { state.setBuf b { state.buf b with dirty := false } with
    disk := Function.update state.disk b (state.buf b).data
    trace := state.trace ++ [(b, (state.buf b).data)] }

/-- Write `b`'s contents to disk. Must be busy. -/
def bwrite (b : Nat) : FsM Unit := do
  let state ← visible
  if (state.buf b).busy then change fun state => state.diskWrite b
  else kernelPanic "bwrite"

def brelse (b : Nat) : FsM Unit := do
  let state ← visible
  if (state.buf b).busy then
    change fun state => state.setBuf b { state.buf b with busy := false }
  else kernelPanic "brelse"

end Xv6Dedup
