import Mathlib.Algebra.BigOperators.Intervals
import Xv6Dedup.Kernel.Queries
import Xv6Dedup.Mkfs.Outcome

/-!
# The report on an image

`getSharedBlocksRate` takes the free sectors of the whole disk from the number
of sectors of the data area. The bitmap also has bits for the sectors of the
log, which `mkfs` leaves clear.
-/

set_option autoImplicit false

namespace Xv6Dedup

open Function Sharing

/-- A consistent disk whose bitmap marks what precedes the data area, with
reference bytes for data sectors only. -/
structure Accurate (blocks : Blocks) : Prop where
  consistent : Consistent blocks
  reserved : ∀ sector < DATASTART, usedOf blocks sector = true
  clear : ∀ sector < 2 * BSIZE, ¬ IsData sector → refOf blocks sector = 0

def dataArea : Finset Nat := Finset.Ico DATASTART LOGSTART

def tabled (blocks : Blocks) : Finset Nat :=
  (Finset.range NINODES).filter fun inum =>
    Allocated blocks inum ∧ (dinodeOf blocks inum).addr NDIRECT ≠ 0

/-- The figures count the allocated sectors, and the pointers with the tables. -/
structure Report.Exact (report : Report) (blocks : Blocks) : Prop where
  allocated : report.total = (dataArea.filter fun sector => usedOf blocks sector = true).card
  pointers : report.total + report.saved =
    (pointers.filter fun p => pointersOf blocks p ≠ 0).card + (tabled blocks).card
  present : pointersOf blocks (ROOTINO, 0) ≠ 0 → report.total + report.saved ≠ 0

section Figures

variable {blocks : Blocks}

theorem mem_dataArea {sector : Nat} : sector ∈ dataArea ↔ IsData sector := Finset.mem_Ico

theorem reportOf_saved (accurate : Accurate blocks) :
    (reportOf blocks).saved = ∑ sector ∈ dataArea, (refOf blocks sector).toNat := by
  have low : ∀ i ∈ Finset.range BSIZE, ((blocks 29).get i).toNat = (refOf blocks i).toNat := by
    intro i member
    have small := Finset.mem_range.mp member
    rw [refOf, refSector, if_pos small, Nat.mod_eq_of_lt small]
  have high : ∀ i ∈ Finset.range BSIZE, ((blocks 30).get i).toNat = (refOf blocks (BSIZE + i)).toNat := by
    intro i member
    have small := Finset.mem_range.mp member
    rw [refOf, refSector, if_neg (by omega), Nat.add_mod_left, Nat.mod_eq_of_lt small]
  have whole : (reportOf blocks).saved = ∑ sector ∈ Finset.range (BSIZE + BSIZE), (refOf blocks sector).toNat := by
    rw [Finset.sum_range_add, reportOf, savedBy, Finset.sum_add_distrib, Finset.sum_congr rfl low,
      Finset.sum_congr rfl high]
  rw [whole]
  refine (Finset.sum_subset (fun sector member => ?_) fun sector member outside => ?_).symm
  · have upper := (mem_dataArea.mp member).2
    simp only [LOGSTART] at upper
    exact Finset.mem_range.mpr (by simp only [BSIZE]; omega)
  · have inside := Finset.mem_range.mp member
    rw [accurate.clear sector (by omega) fun data => outside (mem_dataArea.mpr data)]
    rfl

open Classical in
theorem card_tables (consistent : Consistent blocks) :
    (dataArea.filter (IsTable blocks)).card = (tabled blocks).card := by
  refine (Finset.card_bij (fun inum _ => (dinodeOf blocks inum).addr NDIRECT) ?_ ?_ ?_).symm
  · intro inum member
    obtain ⟨_, allocated, present⟩ := Finset.mem_filter.mp member
    have table : TableOf blocks inum _ := ⟨allocated, rfl, present⟩
    exact Finset.mem_filter.mpr ⟨mem_dataArea.mpr (consistent.tables _ _ table), inum, table⟩
  · intro first member second other same
    obtain ⟨_, allocated, present⟩ := Finset.mem_filter.mp member
    obtain ⟨_, otherAllocated, _⟩ := Finset.mem_filter.mp other
    exact consistent.tablesOwned first second _ ⟨allocated, rfl, present⟩ ⟨otherAllocated, same.symm, present⟩
  · intro sector member
    obtain ⟨_, inum, allocated, table, present⟩ := Finset.mem_filter.mp member
    refine ⟨inum, Finset.mem_filter.mpr ⟨Finset.mem_range.mpr allocated.2.1, allocated, ?_⟩, table⟩
    rw [table]
    exact present

/-- Allocated sectors and saved ones are the pointers and the tables. -/
theorem card_allocated (accurate : Accurate blocks) :
    (dataArea.filter fun sector => usedOf blocks sector = true).card + (reportOf blocks).saved =
      (pointers.filter fun p => pointersOf blocks p ≠ 0).card + (tabled blocks).card := by
  classical
  have consistent := accurate.consistent
  have counts : Counts (· ∈ dataArea) (IsTable blocks) (users pointers (pointersOf blocks))
      (sharesOf blocks).toCounters :=
    ⟨fun sector member => consistent.accounted.ref sector (mem_dataArea.mp member),
      fun sector member => consistent.accounted.used sector (mem_dataArea.mp member)⟩
  have unshared : ∀ sector ∈ dataArea, IsTable blocks sector → users pointers (pointersOf blocks) sector = 0 := by
    intro sector _ table
    refine Nat.eq_zero_of_not_pos fun some => ?_
    obtain ⟨p, _, points⟩ := users_pos_iff.mp some
    exact consistent.tablesApart sector table p points
  have designates : (pointers.filter fun p => pointersOf blocks p ∈ dataArea) =
      pointers.filter fun p => pointersOf blocks p ≠ 0 := by
    refine Finset.filter_congr fun p _ => ?_
    rw [mem_dataArea]
    constructor
    · intro data zero
      rw [zero] at data
      exact absurd data.1 (by decide)
    · intro present
      exact consistent.data p present
  rw [reportOf_saved accurate, ← card_tables consistent, ← designates, ← sum_users]
  exact counts.total unshared

/-- The clear bits of the log sectors are missing from the figure. -/
theorem reportOf_total (accurate : Accurate blocks) : (reportOf blocks).total +
        ((Finset.Ico LOGSTART 1026).filter fun sector => usedOf blocks sector = false).card =
      (dataArea.filter fun sector => usedOf blocks sector = true).card := by
  have clear (start stop : Nat) : ((Finset.Ico start stop).filter fun sector =>
      usedOf blocks sector = false).card =
      ∑ sector ∈ Finset.Ico start stop, if usedOf blocks sector = false then 1 else 0 :=
    Finset.card_filter _ _
  have reserved : ((Finset.Ico 0 DATASTART).filter fun sector =>
      usedOf blocks sector = false).card = 0 := by
    refine Finset.card_filter_eq_zero_iff.mpr fun sector member unused => ?_
    rw [accurate.reserved sector (Finset.mem_Ico.mp member).2] at unused
    cases unused
  have split := Finset.card_filter_add_card_filter_not (s := dataArea) fun sector => usedOf blocks sector = true
  have size : dataArea.card = 985 := Nat.card_Ico _ _
  simp only [Bool.not_eq_true] at split
  have whole : ((Finset.range 1026).filter fun sector => usedOf blocks sector = false).card =
      ((Finset.Ico 0 DATASTART).filter fun sector => usedOf blocks sector = false).card +
        (dataArea.filter fun sector => usedOf blocks sector = false).card +
        ((Finset.Ico LOGSTART 1026).filter fun sector => usedOf blocks sector = false).card := by
    rw [dataArea, clear, clear, clear, Finset.sum_Ico_consecutive _ (by decide) (by decide),
      Finset.sum_Ico_consecutive _ (by decide) (by decide), ← clear, Finset.range_eq_Ico]
  have total : (reportOf blocks).total = 985 -
      ((Finset.range 1026).filter fun sector => usedOf blocks sector = false).card := rfl
  omega

end Figures

/-- The figures are right exactly when the bitmap marks the sectors of the log. -/
theorem getSharedBlocksRate_exact_iff {free : Freedom} {state : State} (calm : Calm ∅ ∅ state)
    (accurate : Accurate state.data) :
    FsWp free getSharedBlocksRate state (fun report after => after = state ∧ (report.Exact state.data ↔
        ∀ sector, LOGSTART ≤ sector → sector < 1026 → usedOf state.data sector = true))
      (fun _ _ => False) := by
  refine getSharedBlocksRate_wp calm accurate.consistent.super ⟨rfl, ?_⟩
  have total := reportOf_total accurate
  have designated := card_allocated accurate
  have none : ((Finset.Ico LOGSTART 1026).filter fun sector =>
      usedOf state.data sector = false).card = 0 ↔
        ∀ sector, LOGSTART ≤ sector → sector < 1026 → usedOf state.data sector = true := by
    rw [Finset.card_filter_eq_zero_iff]
    simp only [Finset.mem_Ico, Bool.not_eq_false, and_imp]
  rw [← none]
  constructor
  · intro exact
    have allocated := exact.allocated
    omega
  · intro marked
    refine ⟨by omega, by omega, fun present => ?_⟩
    have some : 0 < (pointers.filter fun p => pointersOf state.data p ≠ 0).card :=
      Finset.card_pos.mpr ⟨(ROOTINO, 0), Finset.mem_filter.mpr ⟨mem_pointers.mpr (by decide), present⟩⟩
    omega

/-! ## The image without files -/

namespace Mkfs

theorem pointersOf_bareDisk : pointersOf bareDisk = update (fun _ => 0) (1, 0) 31 := by
  funext ⟨inum, index⟩
  rw [update_apply]
  by_cases allocated : Allocated bareDisk inum
  · obtain rfl : inum = 1 := bareDisk_types ⟨inum, allocated.2.1⟩ allocated.2.2
    simp only [pointersOf, if_pos allocated, blockPointer, bareDisk_root,
      Dinode.addr_setAddr _ _ _ (show 0 < NDIRECT + 1 by decide), Prod.mk.injEq, true_and]
    by_cases first : index = 0
    · simp [first]
    · simp [first, Dinode.addr]
  · rw [pointersOf, if_neg allocated, if_neg]
    rintro ⟨rfl, _⟩
    exact allocated ⟨by decide, by decide, by rw [bareDisk_root]; decide⟩

theorem bareDisk_untabled (sector : Nat) : ¬ IsTable bareDisk sector := by
  rintro ⟨inum, allocated, table, present⟩
  obtain rfl : inum = 1 := bareDisk_types ⟨inum, allocated.2.1⟩ allocated.2.2
  exact present table.symm

theorem usedOf_bareDisk (sector : Nat) : usedOf bareDisk sector = true ↔ sector < 32 := by
  have marked : usedOf bareDisk sector = _ := bit_bitmapBlock (by decide) sector
  rw [marked, decide_eq_true_iff, List.mem_range]

theorem users_bareDisk {sector : Nat} (present : sector ≠ 0) :
    users pointers (pointersOf bareDisk) sector = if 31 = sector then 1 else 0 := by
  have moved := users_balance (fun _ => 0) (mem_pointers.mpr (by decide) : (1, 0) ∈ pointers) 31 sector
  have none : users pointers (fun _ => 0) sector = 0 :=
    Finset.card_filter_eq_zero_iff.mpr fun _ _ => present.symm
  rw [if_neg present.symm, none, Nat.zero_add] at moved
  rw [pointersOf_bareDisk]
  exact moved

theorem bareDisk_accurate : Accurate bareDisk := by
  have unread (sector : Nat) : refOf bareDisk sector = 0 := by
    unfold refOf refSector
    split <;> exact Bytes.get_zero _
  have nonzero {sector : Nat} (data : IsData sector) : sector ≠ 0 := by
    rintro rfl
    exact absurd data.1 (by decide)
  refine ⟨⟨?_, ?_, ?_, ?_, ?_, ?_, ?_⟩, ?_, fun sector _ _ => unread sector⟩
  · decide +kernel
  · intro p present
    rw [pointersOf_bareDisk, update_apply] at present ⊢
    split at present
    · rw [if_pos ‹_›]
      exact ⟨by decide, by decide⟩
    · exact absurd rfl present
  · intro inum table isTable
    exact absurd ⟨inum, isTable⟩ (bareDisk_untabled table)
  · intro table isTable
    exact absurd isTable (bareDisk_untabled table)
  · intro first _ table isTable
    exact absurd ⟨first, isTable⟩ (bareDisk_untabled table)
  · intro sector data
    change (refOf bareDisk sector).toNat = users pointers (pointersOf bareDisk) sector - 1
    rw [unread, users_bareDisk (nonzero data)]
    split <;> rfl
  · intro sector data
    change usedOf bareDisk sector = true ↔ 0 < users pointers (pointersOf bareDisk) sector ∨ _
    have lower : 31 ≤ sector := data.1
    rw [usedOf_bareDisk, users_bareDisk (nonzero data), or_iff_left (bareDisk_untabled sector)]
    split <;> omega
  · intro sector reserved
    exact (usedOf_bareDisk sector).mpr (Nat.lt_of_lt_of_le reserved (by decide))

end Mkfs

theorem getSharedBlocksRate_exact_iff_bare : FsWp .full getSharedBlocksRate (mounted {} Mkfs.bareDisk)
      (fun report _ => report.Exact Mkfs.bareDisk ↔
        ∀ sector, LOGSTART ≤ sector → sector < 1026 → usedOf Mkfs.bareDisk sector = true)
      (fun _ _ => False) :=
  (getSharedBlocksRate_exact_iff (mounted_calm {} Mkfs.bareDisk) Mkfs.bareDisk_accurate).post
    fun _ _ outcome => outcome.2

/-- One sector is allocated; the ten clear bits of the log are subtracted. -/
theorem getSharedBlocksRate_negative : ∃ image report, Mkfs.mkfs [] = some image ∧ Accurate image.disk ∧
    Program.returned (getSharedBlocksRate (mounted {} image.disk, {})) = some report ∧
    (dataArea.filter fun sector => usedOf image.disk sector = true).card = 1 ∧
    report.total = -9 := by
  obtain ⟨image, made, disk⟩ := Mkfs.mkfs_nil
  have reports : FsWp .full getSharedBlocksRate (mounted {} Mkfs.bareDisk)
      (fun report _ => report = reportOf Mkfs.bareDisk) (fun _ _ => False) :=
    getSharedBlocksRate_wp (mounted_calm _ _) Mkfs.bareDisk_accurate.consistent.super rfl
  obtain ⟨report, next, ran, same, _⟩ := reports.total (⟨fun _ => rfl, fun _ => rfl, .inl rfl⟩ : MemoOk .full {})
  have total := reportOf_total Mkfs.bareDisk_accurate
  have data : (dataArea.filter fun sector => usedOf Mkfs.bareDisk sector = true).card = 1 := by
    decide +kernel
  have log : ((Finset.Ico LOGSTART 1026).filter fun sector =>
      usedOf Mkfs.bareDisk sector = false).card = 10 := by
    decide +kernel
  refine ⟨image, report, made, disk ▸ Mkfs.bareDisk_accurate, ?_, disk ▸ data, ?_⟩
  · rw [disk, ran]
    rfl
  · rw [same]
    omega

end Xv6Dedup
