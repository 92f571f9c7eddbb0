import Mathlib.Data.Nat.Count
import Xv6Dedup.Kernel.Image

/-!
# Queries about shared blocks

The system call that reads a reference byte, and the report on shared blocks
with the count of free ones.
-/

set_option autoImplicit false

namespace Xv6Dedup

open Function Program

/-- The argument is a signed number that `getBlkRef` takes as an unsigned one. -/
def sys_getBlkRef (n : BitVec 32) : FsM Int := do
  let ref ← getBlkRef n.toNat
  pure ref

/-- The query returns the reference byte, or an error value outside the table, and
finds what `updateBlkRef` has stored. -/
structure Answers (free : Freedom) (state : State) (n : BitVec 32) : Prop where
  query : FsWp free (sys_getBlkRef n) state (fun value after => after = state ∧
      if n.toNat < 2 * BSIZE then value = (refOf state.data n.toNat).toNat else value < 0)
    (fun _ _ => False)
  agree : ∀ flag, FsWp free (do
    updateBlkRef n.toNat flag
    getBlkRef n.toNat) state
    (fun value _ => value = (bumpRef flag (refOf state.data n.toNat)).toNat) (fun _ _ => False)

section Queries

variable {free : Freedom} {state : State}

theorem Calm.refReady {sector : Nat} (calm : Calm ∅ ∅ state)
    (super : superblockOf (state.data 1) = layout) (bounded : sector < 2 * BSIZE) : RefReady state sector :=
  ⟨⟨calm.idle (Finset.notMem_empty _), super⟩, calm.idle (Finset.notMem_empty _), bounded⟩

theorem updated_getBlkRef_wp {sector : Nat} (calm : Calm ∅ ∅ state)
    (super : superblockOf (state.data 1) = layout) (bounded : sector < 2 * BSIZE) (flag : Int) :
    FsWp free (do
      updateBlkRef sector flag
      getBlkRef sector) state
      (fun value _ => value = (bumpRef flag (refOf state.data sector)).toNat) (fun _ _ => False) := by
  refine Wp.bind (updateBlkRef_wp (calm.steady free) (calm.refReady super bounded) ?_)
  have later := calm.written (fun write (_ : write ∈ [refWrite state.data sector
    (bumpRef flag (refOf state.data sector))]) => Finset.notMem_empty _)
  have kept : refSector sector ≠ 1 := by
    unfold refSector
    split <;> decide
  refine getBlkRef_wp (later.steady free) (later.refReady ?_ bounded) ?_
  · rw [State.data_written]
    exact (congrArg superblockOf (update_of_ne kept.symm _ _)).trans super
  · rw [State.data_written]
    exact congrArg BitVec.toNat ((refOf_update_set _ bounded bounded).trans (if_pos rfl))

/-- Between calls the query is answered exactly for the sectors of the table. -/
theorem getBlkRef_answers_iff (calm : Calm ∅ ∅ state)
    (super : superblockOf (state.data 1) = layout) (n : BitVec 32) :
    Answers free state n ↔ n.toNat < 2 * BSIZE := by
  constructor
  · intro answers
    by_contra past
    obtain ⟨value, next, ran, _⟩ := answers.query.total (⟨fun _ => rfl, fun _ => rfl, .inl rfl⟩ : MemoOk free {})
    have stops : sys_getBlkRef n = throw (.undefined "getBlkRef: uninitialised buffer") := by
      unfold sys_getBlkRef getBlkRef
      rw [if_neg (by omega), if_neg (by omega)]
      rfl
    rw [stops] at ran
    cases ran
  · intro inside
    refine ⟨?_, updated_getBlkRef_wp calm super inside⟩
    refine Wp.bind (getBlkRef_wp (calm.steady free) (calm.refReady super inside) (Wp.pure ⟨rfl, ?_⟩))
    rw [if_pos inside]

theorem getBlkRef_answers_blank : Answers .full
    (mounted {} (imageOf (fun _ => {}) (fun _ => 0) [] fun _ => Bytes.zero)) 31#32 := by
  refine (getBlkRef_answers_iff (mounted_calm _ _) ?_ _).mpr (by decide)
  exact @superblockOf_imageOf (fun _ => {}) (fun _ => 0) [] fun _ => Bytes.zero

/-- The first sector past the table: no buffer has been read when `bp->data` is used. -/
theorem getBlkRef_uninitialised : sys_getBlkRef 1024#32 (mounted {} fun _ => Bytes.zero, {}) =
      .error (.undefined "getBlkRef: uninitialised buffer") (mounted {} fun _ => Bytes.zero, {}) := rfl

end Queries

/-! ## The report on shared blocks -/

/-- The inner loop of `getFreeBlocks`: the clear bits of one bitmap block. -/
def freeBits (data : Block) (size b : Nat) : Nat :=
  Nat.count (fun bi => b + bi < size ∧ data.get (bi / 8) &&& Bytes.mask bi = 0) BPB

/-- The outer loop of `getFreeBlocks`, `count` bitmap blocks from sector `b` on. -/
def getFreeFrom (sb : Superblock) : (count b : Nat) → FsM Nat
  | 0, _ => pure 0
  | count + 1, b => do
    let bp ← bread (BBLOCK b sb.ninodes)
    let data ← bdata bp
    brelse bp
    let rest ← getFreeFrom sb count (b + BPB)
    pure (freeBits data sb.size b + rest)

def getFreeBlocks : FsM Nat := do
  let sb ← readsb
  getFreeFrom sb ((sb.size + BPB - 1) / BPB) 0

/-- `total` as first assigned, and `saved`. -/
structure Report where
  total : Int
  saved : Nat

def savedBy (first second : Block) : Nat :=
  ∑ i ∈ Finset.range BSIZE, ((first.get i).toNat + (second.get i).toNat)

/-- The figures of the report; the digits of the rate are not modelled. -/
def getSharedBlocksRate : FsM Report := do
  let bp1 ← bread (← getRefCount 1)
  let bp2 ← bread (← getRefCount 2)
  let sb ← readsb
  let count ← getFreeBlocks
  let data1 ← bdata bp1
  let data2 ← bdata bp2
  brelse bp1
  brelse bp2
  pure { total := (sb.nblocks : Int) - count, saved := savedBy data1 data2 }

def reportOf (blocks : Blocks) : Report where
  total := 985 - ((Finset.range 1026).filter fun sector => usedOf blocks sector = false).card
  saved := savedBy (blocks 29) (blocks 30)

section Report

variable {free : Freedom} {state : State} {Stops : Stop → State → Prop}

theorem freeBits_first (data : Block) {size : Nat} (bounded : size ≤ BPB) : freeBits data size 0 =
      ((Finset.range size).filter fun sector => data.bit sector = false).card := by
  unfold freeBits
  generalize BPB = limit at bounded ⊢
  rw [Nat.count_eq_card_filter_range]
  congr 1
  ext sector
  simp only [Finset.mem_filter, Finset.mem_range, Nat.zero_add, Bytes.and_mask_eq_zero_iff]
  constructor
  · intro member
    exact member.2
  · intro member
    exact ⟨Nat.lt_of_lt_of_le member.1 bounded, member⟩

theorem getFreeBlocks_wp {Post : Nat → State → Prop} (steady : Steady free state)
    (ready : SuperReady state) (idle : (state.buf BITMAP).busy = false)
    (next : Post ((Finset.range 1026).filter fun sector => usedOf state.data sector = false).card state) :
    FsWp free getFreeBlocks state Post Stops := by
  refine Wp.bind (readsb_wp steady ready.idle ?_)
  rw [ready.super]
  refine read_wp steady idle (Wp.bind (brelse_hold_wp idle (Wp.bind (Wp.pure (Wp.pure ?_)))))
  rw [Nat.add_zero]
  exact (freeBits_first (state.data BITMAP) (by decide : 1026 ≤ BPB)).symm ▸ next

theorem State.release_hold_hold {first second : Nat} (different : first ≠ second)
    (idle : (state.buf first).busy = false) : ((state.hold first).hold second).release first = state.hold second := by
  have swapped : (state.hold first).hold second = (state.hold second).hold first := by
    simp only [hold, setBuf, update_of_ne different, update_of_ne different.symm, update_comm different]
  have still : ((state.hold second).buf first).busy = false := by
    rw [hold_buf, if_neg different]
    exact idle
  rw [swapped, release_hold still]

theorem getSharedBlocksRate_wp {Post : Report → State → Prop} (calm : Calm ∅ ∅ state)
    (super : superblockOf (state.data 1) = layout) (next : Post (reportOf state.data) state) :
    FsWp free getSharedBlocksRate state Post Stops := by
  have idle (sector : Nat) : (state.buf sector).busy = false := calm.idle (Finset.notMem_empty _)
  have once := calm.hold 29
  have twice := once.hold 30
  have ready : SuperReady (state.hold 29) := ⟨once.idle (by decide), super⟩
  have held : SuperReady ((state.hold 29).hold 30) := ⟨twice.idle (by decide), super⟩
  refine Wp.bind (getRefCount_wp (calm.steady free) ⟨idle 1, super⟩ 1 ?_)
  rw [if_pos rfl]
  refine Wp.bind (bread_wp (calm.steady free) (idle 29) ?_)
  refine Wp.bind (getRefCount_wp (once.steady free) ready 2 ?_)
  rw [if_neg (show ¬ 2 = 1 by decide)]
  refine Wp.bind (bread_wp (once.steady free) (once.idle (by decide)) ?_)
  refine Wp.bind (readsb_wp (twice.steady free) held.idle ?_)
  refine Wp.bind (getFreeBlocks_wp (twice.steady free) held (twice.idle (by decide)) ?_)
  refine Wp.bind (bdata_wp ((twice.busy 29).mpr (by decide)) ?_)
  refine Wp.bind (bdata_wp ((twice.busy 30).mpr (by decide)) ?_)
  refine Wp.bind (brelse_wp ((twice.busy 29).mpr (by decide)) ?_)
  rw [State.release_hold_hold (by decide) (idle 29)]
  refine Wp.bind (brelse_hold_wp (idle 30) (Wp.pure ?_))
  rw [held.super]
  exact next

end Report

end Xv6Dedup
