import Mathlib.Order.Interval.Finset.Nat
import Xv6Dedup.Kernel.State
import Xv6Dedup.Base.Sharing

/-!
# Disk layout

The places `mkfs` gives to the parts of the file system, and what the sectors
hold: inodes, block pointers, reference bytes and bitmap bits, as functions of
the sector contents.
-/

set_option autoImplicit false

namespace Xv6Dedup

open Function

/-- The superblock `mkfs` writes. -/
def layout : Superblock where
  size := 1026
  nblocks := 985
  ninodes := 200
  nlog := 10
  refCount1 := 29
  refCount2 := 30

abbrev NINODES : Nat := 200
abbrev BITMAP : Nat := 28
abbrev DATASTART : Nat := 31
abbrev LOGSTART : Nat := 1016

def IsData (sector : Nat) : Prop := DATASTART ≤ sector ∧ sector < LOGSTART

theorem isData_bounds {sector : Nat} (data : IsData sector) : sector < 2 * BSIZE ∧ sector < BPB := by
  have upper := data.2
  simp only [LOGSTART, BSIZE, BPB] at *
  omega

abbrev Blocks := Nat → Block

/-! ## Inodes -/

def dinodeOf (blocks : Blocks) (inum : Nat) : Dinode :=
  dinodeAt (blocks (IBLOCK inum)) (inum % IPB)

/-- The fields have the widths of the on-disk structure. -/
structure Dinode.Fits (inode : Dinode) : Prop where
  type : inode.type < 65536
  major : inode.major < 65536
  minor : inode.minor < 65536
  nlink : inode.nlink < 65536
  size : inode.size < 4294967296
  addrs : ∀ entry, inode.addrs entry < 4294967296

theorem dinodeAt_fits (block : Block) (index : Nat) : (dinodeAt block index).Fits where
  type := Bytes.half_lt _ _
  major := Bytes.half_lt _ _
  minor := Bytes.half_lt _ _
  nlink := Bytes.half_lt _ _
  size := Bytes.word_lt _ _
  addrs _ := Bytes.word_lt _ _

variable {index value : Nat} {blocks : Blocks} {inode : Dinode}

theorem dinodeAt_of_bytes {block : Block} (fits : inode.Fits)
    (bytes : ∀ offset < 64, block.get (64 * index + offset) = inode.byteAt offset) : dinodeAt block index = inode := by
  obtain ⟨type, major, minor, nlink, size, addrs⟩ := inode
  simp only [dinodeAt, Dinode.mk.injEq]
  refine ⟨?_, ?_, ?_, ?_, ?_, ?_⟩
  · apply Bytes.half_eq_of_bytes _ fits.type
    intro position inside
    rw [bytes position (by omega)]
    simp [Dinode.byteAt, inside]
  · apply Bytes.half_eq_of_bytes _ fits.major
    intro position inside
    rw [Nat.add_assoc, bytes _ (by omega)]
    simp only [Dinode.byteAt, show ¬ 2 + position < 2 by omega, show 2 + position < 4 by omega,
      if_true, if_false, Nat.add_sub_cancel_left]
  · apply Bytes.half_eq_of_bytes _ fits.minor
    intro position inside
    rw [Nat.add_assoc, bytes _ (by omega)]
    simp [Dinode.byteAt, show ¬ 4 + position < 2 by omega, show ¬ 4 + position < 4 by omega,
      show 4 + position < 6 by omega]
  · apply Bytes.half_eq_of_bytes _ fits.nlink
    intro position inside
    rw [Nat.add_assoc, bytes _ (by omega)]
    simp [Dinode.byteAt, show ¬ 6 + position < 2 by omega, show ¬ 6 + position < 4 by omega,
      show ¬ 6 + position < 6 by omega, show 6 + position < 8 by omega]
  · apply Bytes.word_eq_of_bytes _ fits.size
    intro position inside
    rw [Nat.add_assoc, bytes _ (by omega)]
    simp [Dinode.byteAt, show ¬ 8 + position < 2 by omega, show ¬ 8 + position < 4 by omega,
      show ¬ 8 + position < 6 by omega, show ¬ 8 + position < 8 by omega,
      show 8 + position < 12 by omega]
  · funext entry
    have bounded := entry.isLt
    simp only [NDIRECT] at bounded
    apply Bytes.word_eq_of_bytes _ (fits.addrs entry)
    intro position inside
    rw [show 64 * index + 12 + 4 * entry.val + position =
      64 * index + (12 + 4 * entry.val + position) by omega, bytes _ (by omega)]
    have word : (12 + 4 * entry.val + position - 12) / 4 = entry.val := by omega
    have byte : (12 + 4 * entry.val + position - 12) % 4 = position := by omega
    have addr : Dinode.addr ⟨type, major, minor, nlink, size, addrs⟩ entry.val = addrs entry :=
      dif_pos entry.isLt
    simp only [Dinode.byteAt, show ¬ 12 + 4 * entry.val + position < 2 by omega,
      show ¬ 12 + 4 * entry.val + position < 4 by omega,
      show ¬ 12 + 4 * entry.val + position < 6 by omega,
      show ¬ 12 + 4 * entry.val + position < 8 by omega,
      show ¬ 12 + 4 * entry.val + position < 12 by omega, if_false, word, byte, addr]

theorem dinodeAt_putDinode_same (block : Block) (slot : index < IPB) (fits : inode.Fits) :
    dinodeAt (putDinode block index inode) index = inode := by
  apply dinodeAt_of_bytes fits
  intro offset inside
  rw [putDinode, Bytes.get_splice_inside _ _ (by omega) (by omega)
    (by simp only [IPB, BSIZE] at *; omega), Nat.add_sub_cancel_left]

theorem dinodeAt_putDinode_other (block : Block) {other : Nat} (inode : Dinode) (different : other ≠ index) :
    dinodeAt (putDinode block index inode) other = dinodeAt block other := by
  simp only [dinodeAt, putDinode, Dinode.mk.injEq]
  refine ⟨?_, ?_, ?_, ?_, ?_, ?_⟩
  · exact Bytes.half_splice_outside _ _ (by omega)
  · exact Bytes.half_splice_outside _ _ (by omega)
  · exact Bytes.half_splice_outside _ _ (by omega)
  · exact Bytes.half_splice_outside _ _ (by omega)
  · exact Bytes.word_splice_outside _ _ (by omega)
  · funext entry
    have bounded := entry.isLt
    simp only [NDIRECT] at bounded
    exact Bytes.word_splice_outside _ _ (by omega)

theorem dinodeOf_update_put {inum : Nat} (fits : inode.Fits) (other : Nat) :
    dinodeOf (update blocks (IBLOCK inum) (putDinode (blocks (IBLOCK inum)) (inum % IPB) inode)) other =
      if other = inum then inode else dinodeOf blocks other := by
  have slot : inum % IPB < IPB := Nat.mod_lt _ (by decide)
  by_cases sameBlock : IBLOCK other = IBLOCK inum
  · rw [dinodeOf, sameBlock, update_self]
    by_cases same : other = inum
    · subst same
      rw [if_pos rfl, dinodeAt_putDinode_same _ slot fits]
    · have different : other % IPB ≠ inum % IPB := by
        simp only [IBLOCK, IPB, BSIZE] at sameBlock ⊢
        omega
      rw [if_neg same, dinodeAt_putDinode_other _ _ different, dinodeOf, sameBlock]
  · have different : other ≠ inum := fun same => sameBlock (by rw [same])
    rw [if_neg different, dinodeOf, update_of_ne sameBlock, dinodeOf]

theorem dinodeOf_congr {others : Blocks} {inum : Nat} (same : blocks (IBLOCK inum) = others (IBLOCK inum)) :
    dinodeOf blocks inum = dinodeOf others inum := by
  rw [dinodeOf, dinodeOf, same]

theorem Dinode.addr_setAddr (inode : Dinode) (value other : Nat) (bounded : index < NDIRECT + 1) :
    (inode.setAddr index value).addr other = if other = index then value else inode.addr other := by
  simp only [Dinode.addr, Dinode.setAddr]
  by_cases inside : other < NDIRECT + 1
  · simp [inside]
  · rw [dif_neg inside, if_neg (by omega), dif_neg inside]

/-! ## Block pointers -/

theorem entryAt_putEntry (block : Block) {other : Nat} (bounded : index < NINDIRECT) (small : value < 4294967296) :
    entryAt (putEntry block index value) other = if other = index then value else entryAt block other := by
  by_cases same : other = index
  · subst same
    rw [if_pos rfl]
    exact Bytes.word_putWord_same _ (by simp only [NINDIRECT, BSIZE] at *; omega) small
  · rw [if_neg same]
    exact Bytes.word_putWord_other _ (by omega)

/-- The sector of block `index` of a file, or zero; its first `NDIRECT` blocks
are in the inode, the others in the indirect table. -/
def blockPointer (blocks : Blocks) (inode : Dinode) (index : Nat) : Nat :=
  if index < NDIRECT then inode.addr index
  else if index < MAXFILE ∧ inode.addr NDIRECT ≠ 0 then
    entryAt (blocks (inode.addr NDIRECT)) (index - NDIRECT)
  else 0

theorem blockPointer_congr {others : Blocks}
    (table : inode.addr NDIRECT ≠ 0 → others (inode.addr NDIRECT) = blocks (inode.addr NDIRECT)) (index : Nat) :
    blockPointer others inode index = blockPointer blocks inode index := by
  unfold blockPointer
  by_cases inside : index < MAXFILE ∧ inode.addr NDIRECT ≠ 0
  · rw [if_pos inside, if_pos inside, table inside.2]
  · rw [if_neg inside, if_neg inside]

theorem blockPointer_setDirect (blocks : Blocks) (inode : Dinode) (value : Nat)
    (direct : index < NDIRECT) (other : Nat) : blockPointer blocks (inode.setAddr index value) other =
      if other = index then value else blockPointer blocks inode other := by
  have kept : (inode.setAddr index value).addr NDIRECT = inode.addr NDIRECT := by
    rw [Dinode.addr_setAddr _ _ _ (Nat.lt_succ_of_lt direct), if_neg (Nat.ne_of_gt direct)]
  unfold blockPointer
  rw [kept, Dinode.addr_setAddr _ _ _ (Nat.lt_succ_of_lt direct)]
  by_cases same : other = index
  · rw [if_pos same, if_pos same, if_pos (same ▸ direct)]
  · rw [if_neg same, if_neg same]

theorem blockPointer_setTable (missing : inode.addr NDIRECT = 0) (blank : blocks value = Bytes.zero) (index : Nat) :
    blockPointer blocks (inode.setAddr NDIRECT value) index = blockPointer blocks inode index := by
  have table : (inode.setAddr NDIRECT value).addr NDIRECT = value := by
    rw [Dinode.addr_setAddr _ _ _ (Nat.lt_succ_self _), if_pos rfl]
  unfold blockPointer
  rw [table, missing, blank]
  by_cases direct : index < NDIRECT
  · rw [if_pos direct, if_pos direct, Dinode.addr_setAddr _ _ _ (Nat.lt_succ_self _), if_neg (Nat.ne_of_lt direct)]
  · rw [if_neg direct, if_neg direct, entryAt]
    simp

theorem blockPointer_putEntry {entry : Nat} (present : inode.addr NDIRECT ≠ 0) (bounded : entry < NINDIRECT)
    (small : value < 4294967296) (index : Nat) : blockPointer (update blocks (inode.addr NDIRECT)
        (putEntry (blocks (inode.addr NDIRECT)) entry value)) inode index =
      if index = NDIRECT + entry then value else blockPointer blocks inode index := by
  unfold blockPointer
  by_cases direct : index < NDIRECT
  · rw [if_pos direct, if_pos direct, if_neg (by omega)]
  · rw [if_neg direct, if_neg direct, update_self, entryAt_putEntry _ bounded small]
    have shifted : index - NDIRECT = entry ↔ index = NDIRECT + entry := by omega
    by_cases same : index = NDIRECT + entry
    · have inside : index < MAXFILE := by
        simp only [MAXFILE]
        omega
      rw [if_pos ⟨inside, present⟩, if_pos (shifted.mpr same), if_pos same]
    · rw [if_neg (fun equal => same (shifted.mp equal)), if_neg same]

/-- A place for a block pointer: an inode number and a block index. -/
abbrev Pointer := Nat × Nat

def pointers : Finset Pointer := Finset.Ico 1 NINODES ×ˢ Finset.range MAXFILE

theorem mem_pointers {pointer : Pointer} :
    pointer ∈ pointers ↔ (1 ≤ pointer.1 ∧ pointer.1 < NINODES) ∧ pointer.2 < MAXFILE := by
  rw [pointers, Finset.mem_product, Finset.mem_Ico, Finset.mem_range]

-- membership is decided by `mem_pointers`, not by listing the places
attribute [irreducible] pointers

def Allocated (blocks : Blocks) (inum : Nat) : Prop :=
  1 ≤ inum ∧ inum < NINODES ∧ (dinodeOf blocks inum).type ≠ 0

instance (blocks : Blocks) (inum : Nat) : Decidable (Allocated blocks inum) :=
  inferInstanceAs (Decidable (_ ∧ _ ∧ _))

def pointersOf (blocks : Blocks) (pointer : Pointer) : Nat :=
  if Allocated blocks pointer.1 then
    blockPointer blocks (dinodeOf blocks pointer.1) pointer.2
  else 0

def TableOf (blocks : Blocks) (inum table : Nat) : Prop :=
  Allocated blocks inum ∧ (dinodeOf blocks inum).addr NDIRECT = table ∧ table ≠ 0

def IsTable (blocks : Blocks) (sector : Nat) : Prop := ∃ inum, TableOf blocks inum sector

/-! ## Reference bytes and bitmap -/

def refSector (sector : Nat) : Nat := if sector < BSIZE then 29 else 30

def refOf (blocks : Blocks) (sector : Nat) : Byte :=
  (blocks (refSector sector)).get (sector % BSIZE)

theorem refOf_update_set {sector other : Nat} (value : Byte) (bounded : sector < 2 * BSIZE)
    (otherBounded : other < 2 * BSIZE) :
    refOf (update blocks (refSector sector) ((blocks (refSector sector)).set (sector % BSIZE) value)) other =
      if other = sector then value else refOf blocks other := by
  have inside : sector % BSIZE < BSIZE := Nat.mod_lt _ (by decide)
  by_cases sameBlock : refSector other = refSector sector
  · rw [refOf, sameBlock, update_self, Bytes.get_set _ _ _ _ inside]
    have equal : other % BSIZE = sector % BSIZE ↔ other = sector := by
      simp only [refSector, BSIZE] at *
      split at sameBlock <;> split at sameBlock <;> omega
    simp only [equal]
    by_cases same : other = sector
    · simp [same]
    · simp [same, refOf, sameBlock]
  · have different : other ≠ sector := fun same => sameBlock (by rw [same])
    rw [if_neg different, refOf, update_of_ne sameBlock, refOf]

def usedOf (blocks : Blocks) (sector : Nat) : Bool := (blocks BITMAP).bit sector

def sharesOf (blocks : Blocks) : Sharing.Shares Pointer Nat 8 where
  ref := refOf blocks
  used := usedOf blocks
  ptr := pointersOf blocks

/-! ## Consistency -/

/-- The bitmap is set exactly for the used data sectors, every reference byte is
the number of pointers minus one, and indirect tables are not shared. -/
structure Consistent (blocks : Blocks) : Prop where
  super : superblockOf (blocks 1) = layout
  data : ∀ pointer, pointersOf blocks pointer ≠ 0 → IsData (pointersOf blocks pointer)
  tables : ∀ inum table, TableOf blocks inum table → IsData table
  tablesApart : ∀ table, IsTable blocks table → ∀ pointer, pointersOf blocks pointer ≠ table
  tablesOwned : ∀ first second table, TableOf blocks first table → TableOf blocks second table → first = second
  accounted : (sharesOf blocks).Accounted pointers IsData (IsTable blocks)

end Xv6Dedup
