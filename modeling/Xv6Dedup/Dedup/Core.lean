import Xv6Dedup.Dedup.Pass
import Xv6Dedup.Kernel.InodesProperties
import Xv6Dedup.Kernel.Dedup

/-!
# The kernel state during deduplication

How a state inside `dedup` represents the image of the abstract pass: inodes on
disk or in the cache, indirect tables on disk or in a held buffer, reference
bytes and bitmap. Every state change of the code has one lemma here.
-/

set_option autoImplicit false

namespace Xv6Dedup

open Function Sharing

/-- The inode is one that `dedup` looks at. -/
def IsFile (blocks : Blocks) (inum : Nat) : Prop :=
  1 ≤ inum ∧ inum < NINODES ∧ (dinodeOf blocks inum).type = T_FILE

instance (blocks : Blocks) : DecidablePred (IsFile blocks) := fun inum =>
  inferInstanceAs (Decidable (1 ≤ inum ∧ inum < NINODES ∧ (dinodeOf blocks inum).type = T_FILE))

variable {inum : Nat}

theorem IsFile.allocated {blocks : Blocks} (file : IsFile blocks inum) : Allocated blocks inum :=
  ⟨file.1, file.2.1, by rw [file.2.2]; decide⟩

def Dinode.withDirect (inode : Dinode) (direct : Nat → Nat) : Dinode :=
  { inode with addrs := fun entry =>
      if entry.val < NDIRECT then direct entry.val else inode.addrs entry }

namespace Dinode

variable {inode : Dinode} {direct : Nat → Nat}

theorem addr_withDirect {index : Nat} (bounded : index < NDIRECT) :
    (inode.withDirect direct).addr index = direct index := by
  simp only [addr, withDirect, bounded, if_true, Nat.lt_succ_of_lt bounded, dite_true]

@[simp] theorem addr_withDirect_table : (inode.withDirect direct).addr NDIRECT = inode.addr NDIRECT := by
  simp [addr, withDirect]

theorem withDirect_self (same : ∀ index < NDIRECT, direct index = inode.addr index) :
    inode.withDirect direct = inode := by
  cases inode
  simp only [withDirect, Dinode.mk.injEq, true_and]
  funext entry
  split
  · rename_i bounded
    rw [same entry.val bounded]
    exact dif_pos entry.isLt
  · rfl

theorem withDirect_congr {other : Nat → Nat} (same : ∀ index < NDIRECT, direct index = other index) :
    inode.withDirect direct = inode.withDirect other := by
  simp only [withDirect, Dinode.mk.injEq, true_and]
  funext entry
  split
  · rename_i bounded
    exact same entry.val bounded
  · rfl

theorem setAddr_withDirect {index value : Nat} (bounded : index < NDIRECT) :
    (inode.withDirect direct).setAddr index value = inode.withDirect (update direct index value) := by
  simp only [withDirect, setAddr, Dinode.mk.injEq, true_and]
  funext entry
  by_cases same : entry.val = index
  · simp [same, bounded]
  · simp [same]

theorem Fits.withDirect (fits : inode.Fits) (small : ∀ index, direct index < 4294967296) :
    (inode.withDirect direct).Fits :=
  { fits with
    addrs := fun entry => by
      simp only [Dinode.withDirect]
      split
      · exact small _
      · exact fits.addrs entry }

end Dinode

def fileInode (initial : Blocks) (image : Image) (inum : Nat) : Dinode :=
  if IsFile initial inum then
    (dinodeOf initial inum).withDirect fun index => image.ptr (inum, index)
  else dinodeOf initial inum

theorem fileInode_setEntry (initial : Blocks) (image : Image) (inum entry value other : Nat) : fileInode initial
      { image with ptr := update image.ptr (inum, NDIRECT + entry) value } other = fileInode initial image other := by
  unfold fileInode
  split
  · apply Dinode.withDirect_congr
    intro index inside
    apply update_of_ne
    intro same
    have second := congrArg Prod.snd same
    simp only at second
    omega
  · rfl

theorem fileInode_setDirect_other {initial : Blocks} {image : Image} {other : Nat} (index value : Nat)
    (different : other ≠ inum) : fileInode initial { image with ptr := update image.ptr (inum, index) value } other =
      fileInode initial image other := by
  unfold fileInode
  split
  · apply Dinode.withDirect_congr
    intro position _
    exact update_of_ne (fun equal => different (congrArg Prod.fst equal)) _ _
  · rfl

theorem setAddr_fileInode {initial : Blocks} {image : Image} {index : Nat} (value : Nat)
    (file : IsFile initial inum) (bounded : index < NDIRECT) :
    (fileInode initial image inum).setAddr index value = fileInode initial
      { image with ptr := update image.ptr (inum, index) value } inum := by
  simp only [fileInode, file, if_true]
  rw [Dinode.setAddr_withDirect bounded]
  apply Dinode.withDirect_congr
  intro position _
  by_cases same : position = index
  · simp [same]
  · have apart : (inum, position) ≠ (inum, index) := fun equal =>
      same (congrArg Prod.snd equal)
    rw [update_of_ne same, update_of_ne apart]

def FileTable (initial : Blocks) (sector : Nat) : Prop :=
  ∃ inum, IsFile initial inum ∧ (dinodeOf initial inum).addr NDIRECT = sector

/-- The sectors represent the image; the on-disk inode of the file `stale` may
lag behind. -/
structure Represents (initial : Blocks) (image : Image) (stale : Option Nat) (blocks : Blocks) :
    Prop where
  super : blocks 1 = initial 1
  inodes : ∀ inum < NINODES, stale ≠ some inum → dinodeOf blocks inum = fileInode initial image inum
  tables : ∀ inum, IsFile initial inum → (dinodeOf initial inum).addr NDIRECT ≠ 0 →
    ∀ entry < NINDIRECT, entryAt (blocks ((dinodeOf initial inum).addr NDIRECT)) entry =
      image.ptr (inum, NDIRECT + entry)
  contents : ∀ sector, IsData sector → ¬ FileTable initial sector → blocks sector = initial sector
  ref : ∀ sector < 2 * BSIZE, refOf blocks sector = image.ref sector
  used : ∀ sector < BPB, usedOf blocks sector = image.used sector

/-- The kernel before `dedup`: alone, nothing locked, the file system consistent. -/
structure Quiet (start : State) : Prop where
  consistent : Consistent start.disk
  calm : Calm ∅ ∅ start
  logStart : start.log.start = LOGSTART
  logSize : start.log.size = LOGSIZE
  header : headSectors (start.disk LOGSTART) = []
  cache : Cached start.icache (dinodeOf start.disk) [] [] start.icache

/-- The kernel inside `dedup`. -/
structure Core (start : State) (image : Image) (stale : Option Nat) (held loose : Finset Nat)
    (taken locked : List Slot) (state : State) : Prop where
  calm : Calm held loose state
  heldData : ∀ sector ∈ held, IsData sector
  blocks : Represents start.disk image stale state.data
  cache : Cached start.icache (fileInode start.disk image) taken locked state.icache
  log : state.log = start.log
  files : state.ftable = start.ftable

/-! ## Updating the sectors -/

private theorem iblock_lt (bounded : inum < NINODES) : IBLOCK inum < BITMAP := by
  simp only [IBLOCK, IPB, BSIZE, NINODES, BITMAP] at *
  omega

private theorem refSector_cases (sector : Nat) : refSector sector = 29 ∨ refSector sector = 30 := by
  simp only [refSector]
  split
  · exact .inl rfl
  · exact .inr rfl

section Represents

variable {initial blocks : Blocks} {image : Image} {stale : Option Nat}

theorem tableData (consistent : Consistent initial) (file : IsFile initial inum)
    (present : (dinodeOf initial inum).addr NDIRECT ≠ 0) : IsData ((dinodeOf initial inum).addr NDIRECT) :=
  consistent.tables inum _ ⟨file.allocated, rfl, present⟩

theorem fileInode_sharesOf (initial : Blocks) (inum : Nat) :
    fileInode initial (sharesOf initial) inum = dinodeOf initial inum := by
  unfold fileInode
  split
  · rename_i file
    apply Dinode.withDirect_self
    intro index bounded
    simp [sharesOf, pointersOf, file.allocated, blockPointer, bounded]
  · rfl

theorem represents_initial (initial : Blocks) : Represents initial (sharesOf initial) none initial where
  super := rfl
  inodes inum _ _ := (fileInode_sharesOf initial inum).symm
  tables inum file present entry bounded := by
    have inside : NDIRECT + entry < MAXFILE := by
      simp only [NINDIRECT, MAXFILE, NDIRECT, BSIZE] at *
      omega
    have direct : ¬ NDIRECT + entry < NDIRECT := by omega
    simp only [sharesOf, pointersOf, file.allocated, if_true, blockPointer, direct, if_false,
      inside, present, ne_eq, not_false_eq_true, and_self, Nat.add_sub_cancel_left]
  contents _ _ _ := rfl
  ref _ _ := rfl
  used _ _ := rfl

section

variable (represents : Represents initial image stale blocks)
include represents

section

variable (consistent : Consistent initial)
include consistent

/-- The reference counts and the bitmap may change, and the log. -/
theorem Represents.recount {others : Blocks} {ref : Nat → Byte} {used : Nat → Bool}
    (same : ∀ sector, sector < BITMAP ∨ IsData sector → others sector = blocks sector)
    (refs : ∀ sector < 2 * BSIZE, refOf others sector = ref sector)
    (bits : ∀ sector < BPB, usedOf others sector = used sector) :
    Represents initial { image with ref := ref, used := used } stale others where
  super := by
    rw [same 1 (.inl (by decide))]
    exact represents.super
  inodes inum bounded fresh := by
    rw [dinodeOf_congr (same _ (.inl (iblock_lt bounded)))]
    exact represents.inodes inum bounded fresh
  tables inum file present entry bounded := by
    rw [same _ (.inr (tableData consistent file present))]
    exact represents.tables inum file present entry bounded
  contents sector data plain := by
    rw [same sector (.inr data)]
    exact represents.contents sector data plain
  ref := refs
  used := bits

theorem Represents.congr {others : Blocks} (same : ∀ sector < LOGSTART, others sector = blocks sector) :
    Represents initial image stale others := by
  refine represents.recount consistent (fun sector place => same sector ?_) (fun sector bounded => ?_)
    fun sector bounded => ?_
  · rcases place with low | data
    · exact low.trans (by decide)
    · exact data.2
  · rw [refOf, same _ (by rcases refSector_cases sector with low | high <;> simp only [LOGSTART] <;> omega)]
    exact represents.ref sector bounded
  · rw [usedOf, same BITMAP (by decide)]
    exact represents.used sector bounded

theorem Represents.setRef {sector : Nat} (value : Byte) (bounded : sector < 2 * BSIZE) :
    Represents initial { image with ref := update image.ref sector value } stale
      (afterWrites blocks [refWrite blocks sector value]) := by
  have apart : ∀ other, other ≠ 29 → other ≠ 30 →
      afterWrites blocks [refWrite blocks sector value] other = blocks other := by
    intro other notFirst notSecond
    rw [refWrite]
    apply update_of_ne
    rcases refSector_cases sector with low | high <;> simp only <;> omega
  refine represents.recount consistent (fun other place => ?_) (fun other otherBounded => ?_)
    fun other otherBounded => ?_
  · simp only [IsData, BITMAP, DATASTART] at place
    exact apart other (by omega) (by omega)
  · rw [refWrite, afterWrites_cons, afterWrites_nil, refOf_update_set value bounded otherBounded]
    by_cases same : other = sector
    · simp [same]
    · simp only [same, if_false, update_of_ne (h := same)]
      exact represents.ref other otherBounded
  · rw [usedOf, apart BITMAP (by decide) (by decide)]
    exact represents.used other otherBounded

theorem Represents.clearUsed {sector : Nat} (bounded : sector < BPB) :
    Represents initial { image with used := update image.used sector false } stale
      (update blocks BITMAP ((blocks BITMAP).clearBit sector)) := by
  have apart : ∀ other, other ≠ BITMAP → update blocks BITMAP ((blocks BITMAP).clearBit sector) other = blocks other :=
    fun other different => update_of_ne different _ _
  refine represents.recount consistent (fun other place => ?_) (fun other otherBounded => ?_)
    fun other otherBounded => ?_
  · simp only [IsData, BITMAP, DATASTART] at place
    exact apart other (by simp only [BITMAP]; omega)
  · rw [refOf, apart _ (by
      rcases refSector_cases other with low | high <;> simp only [BITMAP] <;> omega)]
    exact represents.ref other otherBounded
  · have before := represents.used other otherBounded
    rw [usedOf, update_self, Bytes.bit_clearBit _ (by
      simp only [BPB, BSIZE] at *; omega)]
    simp only [usedOf] at before
    rw [before]
    by_cases same : other = sector
    · simp [same]
    · simp [same]

theorem Represents.setEntry {entry value : Nat} (file : IsFile initial inum)
    (present : (dinodeOf initial inum).addr NDIRECT ≠ 0) (bounded : entry < NINDIRECT)
    (small : value < 4294967296) : Represents initial
      { image with ptr := update image.ptr (inum, NDIRECT + entry) value } stale
      (update blocks ((dinodeOf initial inum).addr NDIRECT)
        (putEntry (blocks ((dinodeOf initial inum).addr NDIRECT)) entry value)) := by
  have data := tableData consistent file present
  have lower := data.1
  simp only [DATASTART] at lower
  have apart : ∀ other, other ≠ (dinodeOf initial inum).addr NDIRECT →
      update blocks ((dinodeOf initial inum).addr NDIRECT)
        (putEntry (blocks ((dinodeOf initial inum).addr NDIRECT)) entry value) other = blocks other :=
    fun other different => update_of_ne different _ _
  refine ⟨?_, ?_, ?_, ?_, ?_, ?_⟩
  · rw [apart 1 (by omega)]
    exact represents.super
  · intro other inside fresh
    have before := iblock_lt inside
    simp only [BITMAP] at before
    rw [dinodeOf_congr (apart _ (by omega)), fileInode_setEntry]
    exact represents.inodes other inside fresh
  · intro other otherFile otherPresent position inside
    by_cases same : other = inum
    · subst same
      rw [update_self, entryAt_putEntry _ bounded small]
      by_cases hit : position = entry
      · simp [hit]
      · have missed : (other, NDIRECT + position) ≠ (other, NDIRECT + entry) := by
          intro equal
          have second := congrArg Prod.snd equal
          omega
        simp only [hit, if_false, update_of_ne (h := missed)]
        exact represents.tables other otherFile otherPresent position inside
    · have differentTable : (dinodeOf initial other).addr NDIRECT ≠ (dinodeOf initial inum).addr NDIRECT := by
        intro equal
        exact same (consistent.tablesOwned other inum _
          ⟨otherFile.allocated, equal, present⟩ ⟨file.allocated, rfl, present⟩)
      have missed : (other, NDIRECT + position) ≠ (inum, NDIRECT + entry) :=
        fun equal => same (congrArg Prod.fst equal)
      rw [apart _ differentTable]
      simp only [update_of_ne (h := missed)]
      exact represents.tables other otherFile otherPresent position inside
  · intro sector sectorData plain
    rw [apart _ (fun same => plain ⟨inum, file, same.symm⟩)]
    exact represents.contents sector sectorData plain
  · intro sector inside
    rw [refOf, apart _ (by rcases refSector_cases sector with low | high <;> omega)]
    exact represents.ref sector inside
  · intro sector inside
    rw [usedOf, apart BITMAP (by simp only [BITMAP]; omega)]
    exact represents.used sector inside

end

end

theorem Represents.setDirect {index value : Nat} (represents : Represents initial image (some inum) blocks)
    (bounded : index < NDIRECT) :
    Represents initial { image with ptr := update image.ptr (inum, index) value } (some inum) blocks :=
  { represents with
    inodes := fun other inside fresh => by
      rw [represents.inodes other inside fresh]
      exact (fileInode_setDirect_other _ _ fun same => fresh (congrArg some same.symm)).symm
    tables := fun other file present entry inside => by
      have missed : (other, NDIRECT + entry) ≠ (inum, index) := by
        intro same
        have second := congrArg Prod.snd same
        omega
      simp only [update_of_ne (h := missed)]
      exact represents.tables other file present entry inside }

theorem Represents.putInode (represents : Represents initial image (some inum) blocks)
    (consistent : Consistent initial) (file : IsFile initial inum) (fits : (fileInode initial image inum).Fits) :
    Represents initial image none (update blocks (IBLOCK inum)
      (putDinode (blocks (IBLOCK inum)) (inum % IPB) (fileInode initial image inum))) := by
  have place := iblock_lt file.2.1
  simp only [BITMAP] at place
  have apart : ∀ other, other ≠ IBLOCK inum → update blocks (IBLOCK inum)
        (putDinode (blocks (IBLOCK inum)) (inum % IPB) (fileInode initial image inum)) other = blocks other :=
    fun other different => update_of_ne different _ _
  refine ⟨?_, ?_, ?_, ?_, ?_, ?_⟩
  · exact represents.super
  · intro other inside _
    rw [dinodeOf_update_put fits]
    by_cases same : other = inum
    · rw [if_pos same, same]
    · rw [if_neg same]
      exact represents.inodes other inside (fun stale => same (Option.some.inj stale).symm)
  · intro other otherFile present entry inside
    have data := (tableData consistent otherFile present).1
    simp only [DATASTART] at data
    rw [apart _ (by omega)]
    exact represents.tables other otherFile present entry inside
  · intro sector data plain
    have lower := data.1
    simp only [DATASTART] at lower
    rw [apart _ (by omega)]
    exact represents.contents sector data plain
  · intro sector inside
    rw [refOf, apart _ (by rcases refSector_cases sector with low | high <;> omega)]
    exact represents.ref sector inside
  · intro sector inside
    rw [usedOf, apart BITMAP (by simp only [BITMAP]; omega)]
    exact represents.used sector inside

end Represents

/-! ## Updating the kernel state -/

section Core

variable {start state : State} {image : Image} {stale : Option Nat} {held loose : Finset Nat}
  {taken locked : List Slot}

namespace Core

variable {sector : Nat}

section

variable (core : Core start image stale held loose taken locked state)
include core

theorem hold (data : IsData sector) :
    Core start image stale (insert sector held) loose taken locked (state.hold sector) :=
  { core with
    calm := core.calm.hold sector
    heldData := fun other member => by
      rcases Finset.mem_insert.mp member with same | before
      · rw [same]
        exact data
      · exact core.heldData other before
    blocks := by
      rw [State.data_hold]
      exact core.blocks }

theorem release (tight : sector ∉ loose) :
    Core start image stale (held.erase sector) loose taken locked (state.release sector) :=
  { core with
    calm := core.calm.release tight
    heldData := fun other member => core.heldData other (Finset.mem_of_mem_erase member)
    blocks := by
      rw [State.data_release]
      exact core.blocks }

theorem withDisk {loose' : Finset Nat} {next : State} (calm : Calm held loose' next)
    (data : next.data = state.data) (icache : next.icache = state.icache)
    (log : next.log = state.log) (files : next.ftable = state.ftable) :
    Core start image stale held loose' taken locked next where
  calm := calm
  heldData := core.heldData
  blocks := by
    rw [data]
    exact core.blocks
  cache := by
    rw [icache]
    exact core.cache
  log := log.trans core.log
  files := files.trans core.files

theorem withCache {taken' locked' : List Slot} {icache : Slot → Inode}
    (cached : Cached start.icache (fileInode start.disk image) taken' locked' icache) :
    Core start image stale held loose taken' locked' (state.withCache icache) :=
  { core with
    calm := { core.calm with }
    cache := cached }

theorem idle (outside : ¬ IsData sector) : (state.buf sector).busy = false :=
  core.calm.idle fun member => outside (core.heldData sector member)

section

variable (quiet : Quiet start)
include quiet

theorem superReady : SuperReady state where
  idle := core.idle fun data => absurd data.1 (by decide)
  super := by
    rw [core.blocks.super]
    exact quiet.consistent.super

theorem refReady (data : IsData sector) : RefReady state sector where
  super := core.superReady quiet
  idle := core.idle fun outside => by
    have lower := outside.1
    simp only [DATASTART] at lower
    rcases refSector_cases sector with low | high <;> omega
  bounded := by
    have upper := data.2
    simp only [LOGSTART, BSIZE] at *
    omega

theorem logReady (before : sector < DATASTART) : LogReady state sector := by
  have first : state.log.start = LOGSTART := by rw [core.log, quiet.logStart]
  have size : state.log.size = LOGSIZE := by rw [core.log, quiet.logSize]
  have outside : ∀ other, other < DATASTART ∨ LOGSTART ≤ other → ¬ IsData other := by
    rintro other (low | high) data
    · exact absurd data.1 (Nat.not_le.mpr low)
    · exact absurd data.2 (Nat.not_lt.mpr high)
  refine ⟨core.calm.logFree, core.calm.logEmpty, ?_, core.idle (outside _ ?_),
    core.idle (outside _ ?_), core.idle (outside _ (.inl before)), ?_, ?_⟩
  · rw [size]
    decide
  · rw [first]
    exact .inr (Nat.le_refl _)
  · rw [first]
    exact .inr (Nat.le_succ _)
  · simp only [DATASTART, LOGSTART] at *
    omega
  · simp only [DATASTART, LOGSTART] at *
    omega

theorem setRef (value : Byte) (data : IsData sector) :
    Core start { image with ref := update image.ref sector value } stale held loose
      taken locked (state.written [refWrite state.data sector value]) :=
  { core with
    calm := core.calm.written fun write member held => by
      rw [List.mem_singleton.mp member] at held
      have lower := (core.heldData _ held).1
      simp only [refWrite, DATASTART] at lower
      rcases refSector_cases sector with low | high <;> omega
    blocks := by
      rw [State.data_written]
      exact core.blocks.setRef quiet.consistent value (core.refReady quiet data).bounded }

theorem logged {image' : Image} {stale' : Option Nat} {block : Block} (before : sector < DATASTART)
    (same : fileInode start.disk image' = fileInode start.disk image)
    (blocks : Represents start.disk image' stale' (update state.data sector block)) :
    Core start image' stale' held loose taken locked (state.written
      (loggedWrites state.log.start (state.data state.log.start) sector block)) where
  calm := core.calm.written fun write member held => by
    have data := core.heldData _ held
    have first : state.log.start = LOGSTART := by rw [core.log, quiet.logStart]
    simp only [loggedWrites, List.mem_cons, List.not_mem_nil, or_false, first] at member
    simp only [IsData, DATASTART, LOGSTART] at *
    rcases member with rfl | rfl | rfl | rfl <;> simp only at data <;> omega
  heldData := core.heldData
  blocks := by
    have first : state.log.start = LOGSTART := by rw [core.log, quiet.logStart]
    rw [State.data_written]
    refine blocks.congr quiet.consistent fun other inside => ?_
    simp only [loggedWrites, first, afterWrites_cons, afterWrites_nil]
    rw [update_of_ne (by omega)]
    by_cases isSector : other = sector
    · rw [isSector, update_self, update_self]
    · rw [update_of_ne isSector, update_of_ne isSector, update_of_ne (by omega), update_of_ne (by omega)]
  cache := by
    rw [same]
    exact core.cache
  log := core.log
  files := core.files

end

end

theorem setDirect {index : Nat} {ip : Slot} (value : Nat)
    (core : Core start image (some inum) held loose taken locked state) (member : ip ∈ taken)
    (lock : ip ∈ locked) (number : (state.icache ip).inum = inum)
    (current : (state.icache ip).toDinode = fileInode start.disk image inum) (file : IsFile start.disk inum)
    (bounded : index < NDIRECT) :
    Core start { image with ptr := update image.ptr (inum, index) value } (some inum) held loose taken locked
      { state.setInode ip ((state.icache ip).setAddr index value) with directChanged := true } := by
  have used := core.cache.ref_pos member
  refine ⟨{ core.calm with }, core.heldData, core.blocks.setDirect bounded, ?_, core.log, core.files⟩
  refine core.cache.modify rfl rfl ?_ ?_ ?_ fun _ _ => Iff.rfl
  · intro _
    change (state.icache ip).toDinode.setAddr index value = fileInode _ _ (state.icache ip).inum
    rw [number, current]
    exact setAddr_fileInode value file bounded
  · intro other different otherUsed _
    have otherNumber : (state.icache other).inum ≠ inum := fun same =>
      different (core.cache.distinct other ip otherUsed used (same.trans number.symm))
    exact fileInode_setDirect_other _ _ otherNumber
  · exact (core.cache.busy ip used).trans ⟨fun _ => lock, fun _ => lock⟩

theorem setEntry {entry value : Nat} (core : Core start image stale held loose taken locked state)
    (quiet : Quiet start) (file : IsFile start.disk inum) (present : (dinodeOf start.disk inum).addr NDIRECT ≠ 0)
    (open_ : (dinodeOf start.disk inum).addr NDIRECT ∈ loose) (bounded : entry < NINDIRECT)
    (small : value < 4294967296) :
    Core start { image with ptr := update image.ptr (inum, NDIRECT + entry) value } stale held loose taken locked
      { state.fill ((dinodeOf start.disk inum).addr NDIRECT)
          (putEntry (state.data ((dinodeOf start.disk inum).addr NDIRECT)) entry value) with
        indirectChanged := true } := by
  have filled := core.calm.fill open_ (putEntry (state.data ((dinodeOf start.disk inum).addr NDIRECT)) entry value)
  refine ⟨{ filled with }, core.heldData, ?_, ?_, core.log, core.files⟩
  · have stored := core.blocks.setEntry quiet.consistent file present bounded small
    rw [← State.data_fill] at stored
    exact stored
  · rw [funext (fileInode_setEntry start.disk image inum entry value)]
    exact core.cache

end Core

end Core

end Xv6Dedup
