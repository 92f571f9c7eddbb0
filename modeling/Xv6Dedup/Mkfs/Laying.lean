import Xv6Dedup.Mkfs.Main

/-!
# What `iappend` lays out

The files on an image under construction: their inodes, the number of their
data blocks and their bytes. Sectors are handed out one after another, so that
no two places ever designate the same sector. This is described for images
whose inodes stay below the data area.
-/

set_option autoImplicit false

namespace Xv6Dedup.Mkfs

open Function Program

/-! ## Handing out sectors -/

/-- The sectors from `first` up to `free` have been handed out, each to one place. -/
structure HandedOut {P : Type} (first free : Nat) (sector : P → Nat) : Prop where
  positive : 0 < first
  bounded : first ≤ free
  inside : ∀ place, sector place ≠ 0 → first ≤ sector place ∧ sector place < free
  apart : ∀ place other, sector place ≠ 0 → sector place = sector other → place = other
  onto : ∀ given, first ≤ given → given < free → ∃ place, sector place = given

namespace HandedOut

variable {P : Type} {first free : Nat} {sector next : P → Nat}

theorem ne_free (handed : HandedOut first free sector) (place : P) : sector place ≠ free := by
  have positive := handed.positive
  have bounded := handed.bounded
  intro same
  have range := handed.inside place (by omega)
  omega

theorem extend [DecidableEq P] (handed : HandedOut first free sector) (place : P) (empty : sector place = 0)
    (changed : ∀ other, next other = if other = place then free else sector other) :
    HandedOut first (free + 1) next where
  positive := handed.positive
  bounded := Nat.le_succ_of_le handed.bounded
  inside other present := by
    by_cases same : other = place
    · rw [changed, if_pos same]
      exact ⟨handed.bounded, Nat.lt_succ_self _⟩
    · rw [changed, if_neg same] at present ⊢
      have range := handed.inside other present
      exact ⟨range.1, Nat.lt_succ_of_lt range.2⟩
  apart left right present same := by
    rw [changed, changed] at same
    by_cases leftNew : left = place
    · by_cases rightNew : right = place
      · rw [leftNew, rightNew]
      · rw [if_pos leftNew, if_neg rightNew] at same
        exact absurd same.symm (handed.ne_free right)
    · rw [if_neg leftNew] at same
      rw [changed, if_neg leftNew] at present
      by_cases rightNew : right = place
      · rw [if_pos rightNew] at same
        exact absurd same (handed.ne_free left)
      · rw [if_neg rightNew] at same
        exact handed.apart left right present same
  onto given lower upper := by
    have positive := handed.positive
    by_cases new : given = free
    · exact ⟨place, by rw [changed, if_pos rfl, new]⟩
    · obtain ⟨other, found⟩ := handed.onto given lower (by omega)
      have different : other ≠ place := by
        intro same
        rw [same] at found
        omega
      exact ⟨other, by rw [changed, if_neg different, found]⟩

end HandedOut

variable {index : Nat}

theorem sum_update {α : Type} (weight : α → Nat) (things : Nat → α) {count : Nat} (thing : α)
    (bounded : index < count) :
    ∑ other ∈ Finset.range count, weight (update things index thing other) + weight (things index) =
      ∑ other ∈ Finset.range count, weight (things other) + weight thing := by
  have member : index ∈ Finset.range count := Finset.mem_range.mpr bounded
  have unchanged : ∑ other ∈ (Finset.range count).erase index, weight (update things index thing other) =
        ∑ other ∈ (Finset.range count).erase index, weight (things other) :=
    Finset.sum_congr rfl fun other included => by
      rw [update_of_ne (Finset.ne_of_mem_erase included)]
  rw [← Finset.add_sum_erase _ _ member, ← Finset.add_sum_erase _ (fun other =>
    weight (things other)) member, update_self, unchanged]
  omega

/-! ## Files under construction -/

structure LaidFile where
  inode : Dinode := {}
  /-- The number of its data blocks. -/
  blocks : Nat := 0
  /-- It has an indirect table. -/
  tabled : Bool := false
  content : List Byte := []

namespace LaidFile

def sectors (file : LaidFile) : Nat := file.blocks + if file.tabled then 1 else 0

/-- The sector of a data block, or of the table at position `MAXFILE`. -/
def place (file : LaidFile) (disk : Blocks) (slot : Nat) : Nat :=
  if slot = MAXFILE then file.inode.addr NDIRECT else blockPointer disk file.inode slot

theorem place_table (file : LaidFile) (disk : Blocks) : file.place disk MAXFILE = file.inode.addr NDIRECT :=
  if_pos rfl

theorem place_block (file : LaidFile) (disk : Blocks) (small : index < MAXFILE) :
    file.place disk index = blockPointer disk file.inode index :=
  if_neg (Nat.ne_of_lt small)

end LaidFile

structure Holds (disk : Blocks) (file : LaidFile) : Prop where
  fits : file.inode.Fits
  tabled : file.inode.addr NDIRECT ≠ 0 ↔ file.tabled = true
  present : ∀ index, blockPointer disk file.inode index ≠ 0 ↔ index < file.blocks
  short : file.content.length ≤ BSIZE * file.blocks
  bytes : ∀ position < BSIZE * file.blocks,
    (disk (blockPointer disk file.inode (position / BSIZE))).get (position % BSIZE) = file.content.getD position 0

namespace Holds

variable {disk next : Blocks} {file : LaidFile}

theorem empty (disk : Blocks) (inode : Dinode) (fits : inode.Fits)
    (unmapped : ∀ index, inode.addr index = 0) : Holds disk { inode := inode } where
  fits := fits
  tabled := by simp [unmapped]
  present index := by simp [blockPointer, unmapped]
  short := Nat.zero_le _
  bytes := by simp

variable (holds : Holds disk file)
include holds

theorem table_ne_zero (inside : index < file.blocks) (past : NDIRECT ≤ index) :
    index < MAXFILE ∧ file.inode.addr NDIRECT ≠ 0 := by
  have present := (holds.present index).mpr inside
  rw [blockPointer, if_neg (Nat.not_lt.mpr past)] at present
  by_contra missing
  rw [if_neg missing] at present
  exact present rfl

theorem blocks_le : file.blocks ≤ MAXFILE := by
  by_contra past
  have inside : MAXFILE < file.blocks := Nat.not_le.mp past
  exact Nat.lt_irrefl _ (holds.table_ne_zero inside (Nat.le_add_right _ _)).1

theorem block_at {position : Nat} (inside : position < BSIZE * file.blocks) :
    position / BSIZE < file.blocks ∧ position / BSIZE < MAXFILE := by
  have index : position / BSIZE < file.blocks := Nat.div_lt_of_lt_mul inside
  exact ⟨index, Nat.lt_of_lt_of_le index holds.blocks_le⟩

theorem congr (same : ∀ slot, file.place disk slot ≠ 0 → next (file.place disk slot) = disk (file.place disk slot)) :
    Holds next file ∧ ∀ slot, file.place next slot = file.place disk slot := by
  have pointers : ∀ index, blockPointer next file.inode index = blockPointer disk file.inode index := by
    apply blockPointer_congr
    have table := same MAXFILE
    rwa [file.place_table] at table
  constructor
  · constructor
    · exact holds.fits
    · exact holds.tabled
    · intro index
      rw [pointers]
      exact holds.present index
    · exact holds.short
    · intro position inside
      obtain ⟨index, small⟩ := holds.block_at inside
      have unchanged := same (position / BSIZE)
      rw [file.place_block _ small] at unchanged
      rw [pointers, unchanged ((holds.present _).mpr index)]
      exact holds.bytes position inside
  · intro slot
    simp only [LaidFile.place, pointers]

end Holds

/-- The files other than one are on the new image as they were on the old. -/
def Kept (files : Nat → LaidFile) (inum : Nat) (disk next : Blocks) : Prop :=
  ∀ other ≠ inum, Holds next (files other) ∧ ∀ slot, (files other).place next slot = (files other).place disk slot

/-- Inodes with lower numbers lie before the data area. -/
def INODELIMIT : Nat := (DATASTART - 2) * IPB

structure Laid (files : Nat → LaidFile) (build : Build) : Prop where
  sectors : build.sectors = size
  used : build.usedblocks = build.freeblock
  free : build.freeblock = DATASTART + ∑ inum ∈ Finset.range INODELIMIT, (files inum).sectors
  holds : ∀ inum, Holds build.disk (files inum)
  handed : HandedOut DATASTART build.freeblock fun place : Nat × Nat => (files place.1).place build.disk place.2
  blank : ∀ sector, build.freeblock ≤ sector → build.disk sector = Bytes.zero
  appended : ∀ sector ∈ build.appended, DATASTART ≤ sector ∧ sector < build.freeblock ∧ sector < size

/-- `freeblock++; usedblocks++`. -/
def Build.taken (build : Build) : Build :=
  { build with freeblock := build.freeblock + 1, usedblocks := build.usedblocks + 1 }

/-- A sector written by `iappend`. -/
def Build.stored (build : Build) (sector : Nat) (data : Block) : Build :=
  { build with
    disk := update build.disk sector data
    sectors := max build.sectors (sector + 1)
    appended := build.appended ++ [sector] }

section Steps

variable {files : Nat → LaidFile} {build : Build} {inum : Nat}

namespace Laid

variable (laid : Laid files build)
include laid

theorem inside (other slot : Nat) (present : (files other).place build.disk slot ≠ 0) :
    DATASTART ≤ (files other).place build.disk slot ∧ (files other).place build.disk slot < build.freeblock :=
  laid.handed.inside (other, slot) present

theorem freeblock_ne_zero : build.freeblock ≠ 0 := by
  have first := laid.handed.bounded
  simp only [DATASTART] at first
  omega

theorem congr {next : Build} (same : ∀ sector, DATASTART ≤ sector → next.disk sector = build.disk sector)
    (sectors : next.sectors = build.sectors) (freeblock : next.freeblock = build.freeblock)
    (usedblocks : next.usedblocks = build.usedblocks) (appended : next.appended = build.appended) :
    Laid files next := by
  have kept := fun other => (laid.holds other).congr fun slot present =>
    same _ (laid.inside other slot present).1
  constructor
  · rw [sectors, laid.sectors]
  · rw [usedblocks, freeblock, laid.used]
  · rw [freeblock, laid.free]
  · exact fun other => (kept other).1
  · rw [freeblock]
    simp only [fun other => (kept other).2]
    exact laid.handed
  · intro sector past
    rw [freeblock] at past
    rw [same sector (Nat.le_trans laid.handed.bounded past)]
    exact laid.blank sector past
  · rw [appended, freeblock]
    exact laid.appended

theorem place_ne {other slot slot' : Nat} (different : other ≠ inum)
    (present : (files other).place build.disk slot ≠ 0) :
    (files other).place build.disk slot ≠ (files inum).place build.disk slot' := fun same =>
  different (congrArg Prod.fst (laid.handed.apart (other, slot) (inum, slot') present same))

theorem others (slot : Nat) (data : Block) :
    Kept files inum build.disk (update build.disk ((files inum).place build.disk slot) data) :=
  fun other different => (laid.holds other).congr fun _ present =>
    update_of_ne (laid.place_ne different present) _ _

end Laid

variable {file : LaidFile}

theorem Laid.free_update (laid : Laid files build) {next : Build}
    (changed : Laid (update files inum file) next) (bounded : inum < INODELIMIT) :
    next.freeblock + (files inum).sectors = build.freeblock + file.sectors := by
  have sums := sum_update LaidFile.sectors files file bounded
  have before := laid.free
  have after := changed.free
  omega

theorem Laid.grow (laid : Laid files build) {disk : Blocks} (slot : Nat)
    (bounded : inum < INODELIMIT) (more : file.sectors = (files inum).sectors + 1) (holds : Holds disk file)
    (others : Kept files inum build.disk disk) (empty : (files inum).place build.disk slot = 0)
    (placed : ∀ slot', file.place disk slot' = if slot' = slot then build.freeblock else (files inum).place build.disk slot')
    (blank : ∀ sector, build.freeblock < sector → disk sector = build.disk sector) :
    Laid (update files inum file) { build.taken with disk := disk } where
  sectors := laid.sectors
  used := congrArg (· + 1) laid.used
  free := by
    have sums := sum_update LaidFile.sectors files file bounded
    have free := laid.free
    change build.freeblock + 1 = _
    omega
  holds other := by
    by_cases same : other = inum
    · rw [same, update_self]
      exact holds
    · rw [update_of_ne same]
      exact (others other same).1
  handed := by
    refine laid.handed.extend (inum, slot) empty ?_
    rintro ⟨other, slot'⟩
    by_cases same : other = inum
    · subst same
      simpa using placed slot'
    · simpa [same] using (others other same).2 slot'
  blank sector past := (blank sector past).trans (laid.blank sector (Nat.le_of_succ_le past))
  appended sector member := by
    obtain ⟨lower, upper, inside⟩ := laid.appended sector member
    exact ⟨lower, Nat.lt_succ_of_lt upper, inside⟩

theorem Laid.rewrite (laid : Laid files build) {disk : Blocks} (bounded : inum < INODELIMIT)
    (count : file.sectors = (files inum).sectors) (holds : Holds disk file) (others : Kept files inum build.disk disk)
    (placed : ∀ slot, file.place disk slot = (files inum).place build.disk slot)
    (blank : ∀ sector, build.freeblock ≤ sector → disk sector = build.disk sector) :
    Laid (update files inum file) { build with disk := disk } where
  sectors := laid.sectors
  used := laid.used
  free := by
    have sums := sum_update LaidFile.sectors files file bounded
    have free := laid.free
    change build.freeblock = _
    omega
  holds other := by
    by_cases same : other = inum
    · rw [same, update_self]
      exact holds
    · rw [update_of_ne same]
      exact (others other same).1
  handed := by
    convert laid.handed using 1
    funext ⟨other, slot⟩
    by_cases same : other = inum
    · subst same
      simp only [update_self, placed]
    · simp only [update_of_ne same, (others other same).2]
  blank sector past := (blank sector past).trans (laid.blank sector past)
  appended := laid.appended

private theorem fits_setAddr {inode : Dinode} {value : Nat} (fits : inode.Fits) (small : value < 4294967296) :
    (inode.setAddr index value).Fits :=
  ⟨fits.type, fits.major, fits.minor, fits.nlink, fits.size, fun entry => by
    simp only [Dinode.setAddr]
    split
    · exact small
    · exact fits.addrs entry⟩

/-! ## The steps of `iappend` -/

namespace LaidFile

def addDirect (file : LaidFile) (sector : Nat) : LaidFile :=
  { file with inode := file.inode.setAddr file.blocks sector, blocks := file.blocks + 1 }

def addTable (file : LaidFile) (sector : Nat) : LaidFile :=
  { file with inode := file.inode.setAddr NDIRECT sector, tabled := true }

def addEntry (file : LaidFile) : LaidFile := { file with blocks := file.blocks + 1 }

def addBytes (file : LaidFile) (bytes : List Byte) : LaidFile :=
  { file with content := file.content ++ bytes }

end LaidFile

private theorem Holds.extend {disk next : Blocks} {inode : Dinode} {sector : Nat} (holds : Holds disk file)
    (fits : inode.Fits) (tabled : inode.addr NDIRECT ≠ 0 ↔ file.tabled = true)
    (pointers : ∀ index, blockPointer next inode index =
      if index = file.blocks then sector else blockPointer disk file.inode index) (positive : sector ≠ 0)
    (blank : next sector = Bytes.zero) (same : ∀ index < file.blocks, next (blockPointer disk file.inode index) =
      disk (blockPointer disk file.inode index)) :
    Holds next { file with inode := inode, blocks := file.blocks + 1 } where
  fits := fits
  tabled := tabled
  present index := by
    rw [pointers]
    by_cases new : index = file.blocks
    · rw [if_pos new]
      exact iff_of_true positive (by simp only; omega)
    · rw [if_neg new, holds.present]
      simp only
      omega
  short := Nat.le_trans holds.short (Nat.mul_le_mul_left _ (Nat.le_succ _))
  bytes position inside := by
    rw [pointers]
    by_cases new : position / BSIZE = file.blocks
    · -- the new block lies past the bytes of the file
      have past : file.content.length ≤ position :=
        Nat.le_trans holds.short (new ▸ Nat.mul_div_le position BSIZE)
      rw [if_pos new, blank, Bytes.get_zero, List.getD_eq_getElem?_getD, List.getElem?_eq_none past, Option.getD_none]
    · have before : position / BSIZE < file.blocks := by
        have bound : position / BSIZE < file.blocks + 1 := Nat.div_lt_of_lt_mul inside
        omega
      rw [if_neg new, same _ before]
      exact holds.bytes position ((Nat.div_lt_iff_lt_mul (by decide)).mp before |>.trans_eq (Nat.mul_comm _ _))

theorem Laid.addDirect (laid : Laid files build) (bounded : inum < INODELIMIT)
    (direct : (files inum).blocks < NDIRECT) (small : build.freeblock < 4294967296) :
    Laid (update files inum ((files inum).addDirect build.freeblock)) build.taken := by
  have pointers : ∀ index, blockPointer build.disk
      ((files inum).inode.setAddr (files inum).blocks build.freeblock) index =
        if index = (files inum).blocks then build.freeblock
        else blockPointer build.disk (files inum).inode index :=
    fun index => blockPointer_setDirect _ _ _ direct index
  have table : ((files inum).inode.setAddr (files inum).blocks build.freeblock).addr NDIRECT =
      (files inum).inode.addr NDIRECT := by
    rw [Dinode.addr_setAddr _ _ _ (Nat.lt_succ_of_lt direct), if_neg (Nat.ne_of_gt direct)]
  have inside : (files inum).blocks < MAXFILE := Nat.lt_of_lt_of_le direct (Nat.le_add_right _ _)
  refine laid.grow (files inum).blocks bounded ?_ ?_ (fun _ _ => ⟨laid.holds _, fun _ => rfl⟩) ?_ ?_ fun _ _ => rfl
  · exact Nat.add_right_comm _ _ _
  · refine (laid.holds inum).extend (fits_setAddr (laid.holds inum).fits small) ?_ pointers
      laid.freeblock_ne_zero (laid.blank _ (Nat.le_refl _)) fun _ _ => rfl
    rw [table]
    exact (laid.holds inum).tabled
  · rw [LaidFile.place_block _ _ inside]
    by_contra present
    exact Nat.lt_irrefl _ (((laid.holds inum).present _).mp present)
  · intro slot
    by_cases last : slot = MAXFILE
    · rw [last, if_neg (Nat.ne_of_gt inside)]
      exact table
    · simpa [LaidFile.place, LaidFile.addDirect, last] using pointers slot

theorem Laid.addTable (laid : Laid files build) (bounded : inum < INODELIMIT)
    (untabled : (files inum).tabled = false) (small : build.freeblock < 4294967296) :
    Laid (update files inum ((files inum).addTable build.freeblock)) build.taken := by
  have missing : (files inum).inode.addr NDIRECT = 0 := by
    by_contra present
    exact Bool.noConfusion (untabled.symm.trans ((laid.holds inum).tabled.mp present))
  have blank := laid.blank _ (Nat.le_refl build.freeblock)
  have pointers : ∀ index, blockPointer build.disk ((files inum).inode.setAddr NDIRECT build.freeblock) index =
        blockPointer build.disk (files inum).inode index :=
    blockPointer_setTable missing blank
  have table : ((files inum).inode.setAddr NDIRECT build.freeblock).addr NDIRECT = build.freeblock := by
    rw [Dinode.addr_setAddr _ _ _ (Nat.lt_succ_self _), if_pos rfl]
  refine laid.grow MAXFILE bounded ?_ ?_ (fun _ _ => ⟨laid.holds _, fun _ => rfl⟩) ?_ ?_ fun _ _ => rfl
  · simp [LaidFile.sectors, LaidFile.addTable, untabled]
  · obtain ⟨fits, _, present, short, bytes⟩ := laid.holds inum
    refine ⟨fits_setAddr fits small, ?_, ?_, short, ?_⟩
    · exact iff_of_true (table.trans_ne laid.freeblock_ne_zero) rfl
    · intro index
      exact (iff_of_eq (congrArg (· ≠ 0) (pointers index))).trans (present index)
    · intro position inside
      exact (congrArg (fun sector => (build.disk sector).get _) (pointers _)).trans (bytes position inside)
  · exact missing
  · intro slot
    by_cases last : slot = MAXFILE
    · rw [last]
      exact table
    · simpa [LaidFile.place, LaidFile.addTable, last] using pointers slot

private theorem getD_append (first second : List Byte) (position : Nat) : (first ++ second).getD position 0 =
      if position < first.length then first.getD position 0 else second.getD (position - first.length) 0 := by
  simp only [List.getD_eq_getElem?_getD, List.getElem?_append]
  split <;> rfl

private theorem Laid.block_ne (laid : Laid files build) {slot : Nat} (there : index < (files inum).blocks)
    (different : slot ≠ index) :
    (files inum).place build.disk slot ≠ blockPointer build.disk (files inum).inode index := by
  have holds := laid.holds inum
  have small : index < MAXFILE := Nat.lt_of_lt_of_le there holds.blocks_le
  intro same
  have apart := laid.handed.apart (inum, index) (inum, slot)
  simp only [LaidFile.place_block _ _ small] at apart
  have equal := apart ((holds.present index).mpr there) same.symm
  exact different (congrArg Prod.snd equal).symm

theorem Laid.recorded (laid : Laid files build) {sector : Nat} (lower : DATASTART ≤ sector)
    (upper : sector < build.freeblock) (within : sector < build.sectors) : Laid files { build with
      sectors := max build.sectors (sector + 1)
      appended := build.appended ++ [sector] } :=
  { laid with
    sectors := (Nat.max_eq_left within).trans laid.sectors
    appended := fun other member => by
      rcases List.mem_append.mp member with earlier | last
      · exact laid.appended other earlier
      · rw [List.mem_singleton.mp last]
        exact ⟨lower, upper, laid.sectors ▸ within⟩ }

theorem Laid.addEntry (laid : Laid files build) (bounded : inum < INODELIMIT)
    (tabled : (files inum).tabled = true) (indirect : NDIRECT ≤ (files inum).blocks)
    (inside : (files inum).blocks < MAXFILE) (small : build.freeblock < 4294967296)
    (within : (files inum).inode.addr NDIRECT < build.sectors) :
    Laid (update files inum (files inum).addEntry) (build.taken.stored ((files inum).inode.addr NDIRECT)
        (putEntry (build.disk ((files inum).inode.addr NDIRECT)) ((files inum).blocks - NDIRECT) build.freeblock)) := by
  have holds := laid.holds inum
  have present : (files inum).inode.addr NDIRECT ≠ 0 := holds.tabled.mpr tabled
  have range := laid.inside inum MAXFILE
  rw [LaidFile.place_table] at range
  obtain ⟨lower, upper⟩ := range present
  have pointers := @blockPointer_putEntry _ build.disk _ _ present
    (show (files inum).blocks - NDIRECT < NINDIRECT by simp only [MAXFILE] at inside; omega) small
  simp only [Nat.add_sub_cancel' indirect] at pointers
  generalize putEntry _ _ _ = data at *
  have notTable : ∀ index < (files inum).blocks,
      blockPointer build.disk (files inum).inode index ≠ (files inum).inode.addr NDIRECT := by
    intro index there
    have apart := laid.block_ne there (Nat.ne_of_gt (Nat.lt_trans there inside))
    exact apart.symm
  have grown : Laid (update files inum (files inum).addEntry)
      { build.taken with disk := update build.disk ((files inum).inode.addr NDIRECT) data } := by
    refine laid.grow (files inum).blocks bounded (Nat.add_right_comm _ _ _) ?_ ?_ ?_ ?_ ?_
    · refine holds.extend holds.fits holds.tabled pointers laid.freeblock_ne_zero ?_ ?_
      · rw [update_of_ne (Nat.ne_of_gt upper)]
        exact laid.blank _ (Nat.le_refl _)
      · exact fun index there => update_of_ne (notTable index there) _ _
    · have untouched : Kept files inum _ _ := laid.others MAXFILE data
      rwa [LaidFile.place_table] at untouched
    · rw [LaidFile.place_block _ _ inside]
      by_contra there
      exact Nat.lt_irrefl _ ((holds.present _).mp there)
    · intro slot
      by_cases last : slot = MAXFILE
      · rw [last, if_neg (Nat.ne_of_gt inside)]
        rfl
      · simpa [LaidFile.place, LaidFile.addEntry, last] using pointers slot
    · intro sector past
      exact update_of_ne (by omega) _ _
  exact grown.recorded lower (Nat.lt_succ_of_lt upper) within

theorem Laid.addBytes (laid : Laid files build) (bounded : inum < INODELIMIT) {bytes : List Byte} {src : Nat → Byte}
    (block : (files inum).content.length / BSIZE < (files inum).blocks)
    (room : (files inum).content.length % BSIZE + bytes.length ≤ BSIZE)
    (source : ∀ k < bytes.length, src k = bytes.getD k 0)
    (within : blockPointer build.disk (files inum).inode ((files inum).content.length / BSIZE) < build.sectors) :
    Laid (update files inum ((files inum).addBytes bytes)) (build.stored (blockPointer build.disk (files inum).inode
          ((files inum).content.length / BSIZE)) ((build.disk (blockPointer build.disk (files inum).inode
          ((files inum).content.length / BSIZE))).splice ((files inum).content.length % BSIZE) bytes.length src)) := by
  have holds := laid.holds inum
  have smallBlock : (files inum).content.length / BSIZE < MAXFILE :=
    Nat.lt_of_lt_of_le block holds.blocks_le
  have nonzero := (holds.present _).mpr block
  obtain ⟨lower, upper⟩ : DATASTART ≤ blockPointer build.disk (files inum).inode
      ((files inum).content.length / BSIZE) ∧ blockPointer build.disk (files inum).inode
        ((files inum).content.length / BSIZE) < build.freeblock := by
    have range := laid.inside inum ((files inum).content.length / BSIZE)
    rw [LaidFile.place_block _ _ smallBlock] at range
    exact range nonzero
  generalize sectorEq : blockPointer build.disk (files inum).inode ((files inum).content.length / BSIZE) = sector at *
  generalize dataEq : (build.disk sector).splice ((files inum).content.length % BSIZE) bytes.length src = data
  have pointers : ∀ index, blockPointer (update build.disk sector data)
      (files inum).inode index = blockPointer build.disk (files inum).inode index := by
    apply blockPointer_congr
    intro _
    have apart := laid.block_ne block (Nat.ne_of_gt smallBlock)
    rw [sectorEq] at apart
    exact update_of_ne apart _ _
  have written : Holds (update build.disk sector data) ((files inum).addBytes bytes) := by
    refine ⟨holds.fits, holds.tabled, ?_, ?_, ?_⟩
    · intro index
      exact (iff_of_eq (congrArg (· ≠ 0) (pointers index))).trans (holds.present index)
    · simp only [LaidFile.addBytes, List.length_append, BSIZE] at *
      omega
    · intro position inside
      obtain ⟨there, small⟩ := holds.block_at inside
      change (update build.disk sector data (blockPointer _ (files inum).inode _)).get _ =
        ((files inum).content ++ bytes).getD position 0
      rw [pointers, getD_append]
      by_cases here : position / BSIZE = (files inum).content.length / BSIZE
      · rw [here, sectorEq, update_self, ← dataEq]
        have old := holds.bytes position inside
        rw [here, sectorEq] at old
        rw [Bytes.get_splice]
        by_cases before : position < (files inum).content.length
        · rw [if_pos before, if_neg (by simp only [BSIZE] at *; omega), old]
        · rw [if_neg before]
          by_cases new : position - (files inum).content.length < bytes.length
          · rw [if_pos (by simp only [BSIZE] at *; omega), source _ (by simp only [BSIZE] at *; omega)]
            congr 1
            simp only [BSIZE] at *
            omega
          · rw [if_neg (by simp only [BSIZE] at *; omega), old, List.getD_eq_getElem?_getD,
              List.getD_eq_getElem?_getD, List.getElem?_eq_none (Nat.not_lt.mp before),
              List.getElem?_eq_none (Nat.not_lt.mp new)]
      · have apart : blockPointer build.disk (files inum).inode (position / BSIZE) ≠ sector := by
          have different := laid.block_ne block here
          rw [LaidFile.place_block _ _ small, sectorEq] at different
          exact different
        rw [update_of_ne apart, holds.bytes position inside]
        by_cases before : position < (files inum).content.length
        · rw [if_pos before]
        · have past : bytes.length ≤ position - (files inum).content.length := by
            simp only [BSIZE] at *
            omega
          rw [if_neg before, List.getD_eq_getElem?_getD, List.getD_eq_getElem?_getD,
            List.getElem?_eq_none (Nat.not_lt.mp before), List.getElem?_eq_none past]
  have kept : Kept files inum _ _ := laid.others ((files inum).content.length / BSIZE) data
  rw [LaidFile.place_block _ _ smallBlock, sectorEq] at kept
  have stored : Laid (update files inum ((files inum).addBytes bytes))
      { build with disk := update build.disk sector data } := by
    refine laid.rewrite bounded rfl written kept (fun slot => ?_) (fun other past => ?_)
    · simp only [LaidFile.place, LaidFile.addBytes, pointers]
    · exact update_of_ne (by omega) _ _
  exact stored.recorded lower upper within

end Steps

end Xv6Dedup.Mkfs
