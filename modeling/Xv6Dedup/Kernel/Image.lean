import Xv6Dedup.Kernel.Reading

/-!
# Disk images

The sectors that hold given inodes, reference bytes and bitmap bits, and small
consistent file systems described by the list of their block pointers.
-/

set_option autoImplicit false

namespace Xv6Dedup

open Sharing

def superBlock (sb : Superblock) : Block :=
  (((((Bytes.zero.putWord 0 sb.size).putWord 4 sb.nblocks).putWord 8 sb.ninodes).putWord 12
    sb.nlog).putWord 16 sb.refCount1).putWord 20 sb.refCount2

def inodeBlock (inodes : Nat → Dinode) (first : Nat) : Block :=
  fun position => (inodes (first + position.val / 64)).byteAt (position.val % 64)

def bitmapBlock (used : List Nat) : Block := used.foldl Bytes.setBit Bytes.zero

/-- The sectors of a file system with the given inodes, reference bytes, used
sectors and other contents. -/
def imageOf (inodes : Nat → Dinode) (ref : Nat → Byte) (used : List Nat) (content : Blocks) :
    Blocks := fun sector =>
  if sector = 1 then superBlock layout
  else if 2 ≤ sector ∧ sector < BITMAP then inodeBlock inodes ((sector - 2) * IPB)
  else if sector = BITMAP then bitmapBlock used
  else if sector = 29 then fun position => ref position.val
  else if sector = 30 then fun position => ref (BSIZE + position.val)
  else content sector

section Image

variable {inodes : Nat → Dinode} {ref : Nat → Byte} {used : List Nat} {content : Blocks}

theorem superblockOf_imageOf : superblockOf (imageOf inodes ref used content 1) = layout := by
  congr 1

theorem dinodeOf_imageOf {inum : Nat} (bounded : inum < NINODES) (fits : (inodes inum).Fits) :
    dinodeOf (imageOf inodes ref used content) inum = inodes inum := by
  have place : IBLOCK inum < BITMAP := by
    simp only [IBLOCK, IPB, BSIZE, NINODES, BITMAP] at *
    omega
  have low : 2 ≤ IBLOCK inum := Nat.le_add_left _ _
  apply dinodeAt_of_bytes fits
  intro offset inside
  have position : 64 * (inum % IPB) + offset < BSIZE := by
    simp only [IPB, BSIZE] at *
    omega
  rw [imageOf, if_neg (by omega), if_pos ⟨low, place⟩]
  simp only [Bytes.get, position, dite_true, inodeBlock]
  rw [show (IBLOCK inum - 2) * IPB + (64 * (inum % IPB) + offset) / 64 = inum by
      simp only [IBLOCK, IPB, BSIZE] at *
      omega,
    show (64 * (inum % IPB) + offset) % 64 = offset by omega]

theorem refOf_imageOf {sector : Nat} (bounded : sector < 2 * BSIZE) :
    refOf (imageOf inodes ref used content) sector = ref sector := by
  have small : sector % BSIZE < BSIZE := Nat.mod_lt _ (by decide)
  have first : imageOf inodes ref used content 29 = fun position => ref position.val := by
    simp [imageOf, BITMAP]
  have second : imageOf inodes ref used content 30 = fun position =>
      ref (BSIZE + position.val) := by
    simp [imageOf, BITMAP]
  unfold refOf refSector
  split
  · rename_i low
    rw [first, Nat.mod_eq_of_lt low]
    simp only [Bytes.get, low, dite_true]
  · have offset : BSIZE + sector % BSIZE = sector := by
      simp only [BSIZE] at *
      omega
    rw [second]
    simp only [Bytes.get, small, dite_true, offset]

theorem bit_bitmapBlock (bounded : ∀ sector ∈ used, sector < BPB) (sector : Nat) :
    (bitmapBlock used).bit sector = decide (sector ∈ used) := by
  have general : ∀ (sectors : List Nat) (block : Block), (∀ other ∈ sectors, other < BPB) →
      (sectors.foldl Bytes.setBit block).bit sector = (block.bit sector || decide (sector ∈ sectors)) := by
    intro sectors
    induction sectors with
    | nil => simp
    | cons head tail ih =>
      intro block inside
      have small : head < 8 * BSIZE := by
        have first := inside head List.mem_cons_self
        omega
      rw [List.foldl_cons, ih _ fun other member => inside other (List.mem_cons_of_mem _ member),
        Bytes.bit_setBit _ small, Bool.or_assoc]
      simp [List.mem_cons]
  rw [bitmapBlock, general used _ bounded]
  simp [Bytes.bit]

theorem usedOf_imageOf (bounded : ∀ sector ∈ used, sector < BPB) (sector : Nat) :
    usedOf (imageOf inodes ref used content) sector = decide (sector ∈ used) := by
  exact bit_bitmapBlock bounded sector

theorem imageOf_content {sector : Nat} (past : DATASTART ≤ sector) :
    imageOf inodes ref used content sector = content sector := by
  simp only [DATASTART] at past
  simp only [imageOf, BITMAP]
  rw [if_neg (by omega), if_neg (by omega), if_neg (by omega), if_neg (by omega), if_neg (by omega)]

end Image

/-! ## Small file systems -/

/-- A file system with direct blocks only, as the list of its pointers. -/
abbrev Sample := List (Pointer × Nat)

namespace Sample

variable (sample : Sample) (content : Blocks)

def ptr (p : Pointer) : Nat := (sample.lookup p).getD 0

def inode (inum : Nat) : Dinode :=
  if sample.any fun entry => entry.1.1 = inum then
    { type := T_FILE
      nlink := 1
      size := BSIZE * (sample.filter fun entry => entry.1.1 = inum).length
      addrs := fun index => if index.val < NDIRECT then sample.ptr (inum, index.val) else 0 }
  else {}

def count (sector : Nat) : Nat := (sample.filter fun entry => entry.2 = sector).length

def disk : Blocks :=
  imageOf sample.inode (fun sector => BitVec.ofNat 8 (sample.count sector - 1)) (sample.map (·.2)) content

def state : State := mounted {} (sample.disk content)

structure Valid : Prop where
  keys : (sample.map (·.1)).Nodup
  inums : ∀ entry ∈ sample, 1 ≤ entry.1.1 ∧ entry.1.1 < NINODES
  direct : ∀ entry ∈ sample, entry.1.2 < NDIRECT
  data : ∀ entry ∈ sample, DATASTART ≤ entry.2 ∧ entry.2 < LOGSTART
  small : sample.length ≤ 256

instance : Decidable sample.Valid :=
  decidable_of_iff ((sample.map (·.1)).Nodup ∧ (∀ entry ∈ sample, 1 ≤ entry.1.1 ∧ entry.1.1 < NINODES) ∧
    (∀ entry ∈ sample, entry.1.2 < NDIRECT) ∧
    (∀ entry ∈ sample, DATASTART ≤ entry.2 ∧ entry.2 < LOGSTART) ∧ sample.length ≤ 256)
    ⟨fun all => ⟨all.1, all.2.1, all.2.2.1, all.2.2.2.1, all.2.2.2.2⟩,
      fun valid => ⟨valid.keys, valid.inums, valid.direct, valid.data, valid.small⟩⟩

section Valid

variable {sample : Sample} {content : Blocks}

theorem ptr_eq_iff (valid : sample.Valid) {p : Pointer} {sector : Nat} (present : sector ≠ 0) :
    sample.ptr p = sector ↔ (p, sector) ∈ sample := by
  have keys := valid.keys
  clear valid
  induction sample with
  | nil => simpa [ptr] using present.symm
  | cons head tail ih =>
    obtain ⟨key, value⟩ := head
    rw [List.map_cons, List.nodup_cons] at keys
    by_cases same : p = key
    · subst same
      have absent : (p, sector) ∉ tail := fun member =>
        keys.1 (List.mem_map.mpr ⟨_, member, rfl⟩)
      simp [ptr, absent, eq_comm]
    · have step : ptr ((key, value) :: tail) p = ptr tail p := by
        have different : (p == key) = false := by simpa using same
        simp [ptr, List.lookup_cons, different]
      rw [step]
      simpa [same] using ih keys.2

theorem ptr_data (valid : sample.Valid) {p : Pointer} (present : sample.ptr p ≠ 0) :
    (1 ≤ p.1 ∧ p.1 < NINODES) ∧ p.2 < NDIRECT ∧ IsData (sample.ptr p) := by
  have member := (ptr_eq_iff valid present).mp rfl
  exact ⟨valid.inums _ member, valid.direct _ member, valid.data _ member⟩

theorem inode_fits (valid : sample.Valid) (inum : Nat) : (sample.inode inum).Fits := by
  have small := valid.small
  have fewer := List.length_filter_le (fun entry => decide (entry.1.1 = inum)) sample
  unfold inode
  split
  · refine ⟨show T_FILE < _ by decide, show 0 < _ by decide, show 0 < _ by decide,
      show 1 < _ by decide, ?_, fun index => ?_⟩
    · simp only [BSIZE]
      omega
    · simp only
      split
      · by_cases zero : sample.ptr (inum, index.val) = 0
        · omega
        · have upper := (ptr_data valid zero).2.2.2
          simp only [LOGSTART] at upper
          omega
      · decide
  · exact ⟨by decide, by decide, by decide, by decide, by decide, fun _ => show 0 < _ by decide⟩

theorem dinodeOf_disk (valid : sample.Valid) {inum : Nat} (bounded : inum < NINODES) :
    dinodeOf (sample.disk content) inum = sample.inode inum :=
  dinodeOf_imageOf bounded (inode_fits valid inum)

theorem inode_table (inum : Nat) : (sample.inode inum).addr NDIRECT = 0 := by
  unfold inode
  split
  · simp [Dinode.addr]
  · rfl

theorem pointersOf_disk (valid : sample.Valid) (p : Pointer) : pointersOf (sample.disk content) p = sample.ptr p := by
  obtain ⟨inum, index⟩ := p
  by_cases zero : sample.ptr (inum, index) = 0
  · rw [zero, pointersOf]
    split
    · rename_i allocated
      rw [dinodeOf_disk valid allocated.2.1, blockPointer, inode_table]
      split
      · rename_i direct
        unfold inode
        split
        · simp [Dinode.addr, direct, zero, Nat.lt_succ_of_lt direct]
        · simp [Dinode.addr]
      · simp
    · rfl
  · obtain ⟨⟨positive, bounded⟩, direct, _⟩ := ptr_data valid zero
    have member := (ptr_eq_iff valid zero).mp rfl
    have file : (sample.any fun entry => entry.1.1 = inum) = true :=
      List.any_eq_true.mpr ⟨_, member, by simp⟩
    have allocated : Allocated (sample.disk content) inum := by
      refine ⟨positive, bounded, ?_⟩
      rw [dinodeOf_disk valid bounded, inode, if_pos file]
      exact show T_FILE ≠ 0 by decide
    rw [pointersOf, if_pos allocated, dinodeOf_disk valid bounded, blockPointer, inode, if_pos file]
    simp [Dinode.addr, direct, Nat.lt_succ_of_lt direct]

theorem noTable (valid : sample.Valid) (sector : Nat) : ¬ IsTable (sample.disk content) sector := by
  rintro ⟨inum, allocated, same, present⟩
  rw [dinodeOf_disk valid allocated.2.1, inode_table] at same
  exact present same.symm

theorem users_disk (valid : sample.Valid) {sector : Nat} (present : sector ≠ 0) :
    users pointers (pointersOf (sample.disk content)) sector = sample.count sector := by
  have listed : (pointers.filter fun p => pointersOf (sample.disk content) p = sector) =
      ((sample.filter fun entry => entry.2 = sector).map (·.1)).toFinset := by
    ext p
    rw [Finset.mem_filter, pointersOf_disk valid, ptr_eq_iff valid present, mem_pointers,
      List.mem_toFinset, List.mem_map]
    constructor
    · rintro ⟨_, member⟩
      exact ⟨(p, sector), List.mem_filter.mpr ⟨member, by simp⟩, rfl⟩
    · rintro ⟨entry, filtered, rfl⟩
      obtain ⟨member, same⟩ := List.mem_filter.mp filtered
      have equal : entry.2 = sector := by simpa using same
      refine ⟨⟨valid.inums _ member, ?_⟩, ?_⟩
      · have direct := valid.direct _ member
        simp only [MAXFILE] at *
        omega
      · rw [← equal]
        exact member
  rw [users, listed, List.toFinset_card_of_nodup]
  · rw [List.length_map]
    rfl
  · exact valid.keys.sublist (List.filter_sublist.map _)

theorem consistent (valid : sample.Valid) : Consistent (sample.disk content) where
  super := superblockOf_imageOf
  data p present := by
    rw [pointersOf_disk valid] at present ⊢
    exact (ptr_data valid present).2.2
  tables inum table isTable := absurd ⟨inum, isTable⟩ (noTable valid table)
  tablesApart table isTable := absurd isTable (noTable valid table)
  tablesOwned first second table isTable := absurd ⟨first, isTable⟩ (noTable valid table)
  accounted := by
    have nonzero : ∀ {sector}, IsData sector → sector ≠ 0 := by
      rintro sector ⟨lower, _⟩ zero
      simp only [DATASTART] at lower
      omega
    constructor
    · intro sector data
      have upper := data.2
      have fewer := List.length_filter_le (fun entry => decide (entry.2 = sector)) sample
      have small := valid.small
      change (refOf (sample.disk content) sector).toNat = users pointers (pointersOf (sample.disk content)) sector - 1
      rw [users_disk valid (nonzero data), disk, refOf_imageOf (by
        simp only [LOGSTART, BSIZE] at *; omega), BitVec.toNat_ofNat]
      apply Nat.mod_eq_of_lt
      unfold count
      omega
    · intro sector data
      change usedOf (sample.disk content) sector = true ↔
        0 < users pointers (pointersOf (sample.disk content)) sector ∨ _
      have bounded : ∀ other ∈ sample.map (·.2), other < BPB := by
        intro other member
        obtain ⟨entry, included, rfl⟩ := List.mem_map.mp member
        have upper := (valid.data entry included).2
        simp only [LOGSTART, BPB, BSIZE] at *
        omega
      rw [users_disk valid (nonzero data), or_iff_left (noTable valid sector), disk,
        usedOf_imageOf bounded, decide_eq_true_iff, List.mem_map, count,
        List.length_pos_iff_exists_mem]
      constructor
      · rintro ⟨entry, member, same⟩
        exact ⟨entry, List.mem_filter.mpr ⟨member, by simpa using same⟩⟩
      · rintro ⟨entry, filtered⟩
        obtain ⟨member, same⟩ := List.mem_filter.mp filtered
        exact ⟨entry, member, by simpa using same⟩

end Valid

end Sample

end Xv6Dedup
