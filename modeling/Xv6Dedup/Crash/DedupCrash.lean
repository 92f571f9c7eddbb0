import Xv6Dedup.Dedup.Completeness

/-!
# Crashes during deduplication

`dedup` writes reference bytes in place and frees blocks in transactions of
their own while the inode and its indirect table, which still designate the old
sectors, are written after the scan of the file. The first redirection already
passes through a disk that undercounts or frees a designated sector.
-/

set_option autoImplicit false

namespace Xv6Dedup

open Function Sharing

/-- After a crash and recovery: files read as before, and designated sectors are
marked used and not undercounted. -/
structure CrashSafe (before after : Blocks) : Prop where
  reads : ∀ inum, 1 ≤ inum → inum < NINODES → ∀ drivers off n memo, MemoOk .full memo →
    reread drivers after inum off n memo = reread drivers before inum off n memo
  used : ∀ sector, sector ≠ 0 → 0 < users pointers (pointersOf after) sector →
    usedOf after sector = true
  counted : ∀ sector, sector ≠ 0 →
    users pointers (pointersOf after) sector - 1 ≤ (refOf after sector).toNat

/-- The sector writes of a run of `dedup`, whether it returns or stops. -/
def dedupWrites (start : State) (memo : Memo) : List (Nat × Block) :=
  (endState (dedup (start, memo))).trace.drop start.trace.length

def DedupCrashSafe (start : State) (memo : Memo) : Prop :=
  ∀ crash rebootMemo, MemoOk .full rebootMemo → ∃ recovered memo', recover_from_log (rebooted LOGSTART LOGSIZE
      (afterWrites start.disk ((dedupWrites start memo).take crash)), rebootMemo) =
        .ok () (recovered, memo') ∧ CrashSafe start.disk recovered.disk

/-! ## Disks with the same pointers -/

section Pointers

variable {before after : Blocks}

theorem pointersOf_congr (consistent : Consistent before)
    (inodes : ∀ inum < NINODES, after (IBLOCK inum) = before (IBLOCK inum))
    (data : ∀ sector, IsData sector → after sector = before sector) (p : Pointer) :
    pointersOf after p = pointersOf before p := by
  have inode : ∀ inum < NINODES, dinodeOf after inum = dinodeOf before inum :=
    fun inum bounded => dinodeOf_congr (inodes inum bounded)
  have allocated : Allocated after p.1 ↔ Allocated before p.1 := by
    constructor
    · rintro ⟨positive, bounded, typed⟩
      exact ⟨positive, bounded, inode p.1 bounded ▸ typed⟩
    · rintro ⟨positive, bounded, typed⟩
      exact ⟨positive, bounded, (inode p.1 bounded).symm ▸ typed⟩
  unfold pointersOf
  by_cases used : Allocated before p.1
  · rw [if_pos (allocated.mpr used), inode p.1 used.2.1, blockPointer, blockPointer]
    split
    · rfl
    · split
      · rename_i inTable
        rw [data _ (consistent.tables p.1 _ ⟨used, rfl, inTable.2⟩)]
      · rfl
  · rw [if_neg used, if_neg (mt allocated.mp used)]

theorem crashSafe_of_same (consistent : Consistent before)
    (same : ∀ sector < LOGSTART, after sector = before sector) : CrashSafe before after := by
  have inodes : ∀ inum < NINODES, after (IBLOCK inum) = before (IBLOCK inum) := by
    intro inum bounded
    apply same
    simp only [IBLOCK, IPB, BSIZE, NINODES, LOGSTART] at *
    omega
  have data : ∀ sector, IsData sector → after sector = before sector := fun sector inside =>
    same sector inside.2
  have pointer := pointersOf_congr consistent inodes data
  have counts : ∀ sector, sector ≠ 0 → 0 < users pointers (pointersOf after) sector →
      IsData sector ∧ users pointers (pointersOf after) sector = users pointers (pointersOf before) sector := by
    intro sector nonzero pointed
    rw [funext pointer] at pointed ⊢
    obtain ⟨p, _, points⟩ := users_pos_iff.mp pointed
    exact ⟨points ▸ consistent.data p (points ▸ nonzero), rfl⟩
  have refs : ∀ sector, IsData sector → refOf after sector = refOf before sector := by
    intro sector _
    unfold refOf refSector
    split
    · rw [same 29 (by decide)]
    · rw [same 30 (by decide)]
  refine ⟨?_, ?_, ?_⟩
  · intro inum positive bounded drivers off n memo allowed
    have inode := dinodeOf_congr (inodes inum bounded)
    rw [reread_eq drivers after inum off n allowed, reread_eq drivers before inum off n allowed, inode]
    split
    · rfl
    · rename_i typed
      have allocated : Allocated before inum := ⟨positive, bounded, typed⟩
      have block : ∀ index, blockPointer after (dinodeOf before inum) index =
          blockPointer before (dinodeOf before inum) index := by
        intro index
        have here := pointer (inum, index)
        rw [pointersOf, pointersOf, if_pos allocated, if_pos ⟨positive, bounded, inode ▸ typed⟩, inode] at here
        exact here
      apply readResult_congr rfl rfl rfl
      · intro index
        rw [block]
      · intro index present
        rw [block] at present ⊢
        apply data
        have designated := consistent.data (inum, index)
        rw [pointersOf, if_pos allocated] at designated
        exact designated present
  · intro sector nonzero pointed
    obtain ⟨isData, equal⟩ := counts sector nonzero pointed
    rw [usedOf, same BITMAP (by decide)]
    exact (consistent.accounted.used sector isData).mpr (.inl (equal ▸ pointed))
  · intro sector nonzero
    rcases Nat.eq_zero_or_pos (users pointers (pointersOf after) sector) with none | pointed
    · rw [none]
      exact Nat.zero_le _
    · obtain ⟨isData, equal⟩ := counts sector nonzero pointed
      rw [equal, refs sector isData]
      exact Nat.le_of_eq (consistent.accounted.ref sector isData).symm

end Pointers

/-! ## The first redirection -/

section FirstRedirection

variable {start : State} {memo : Memo}

theorem dedupWrites_cases {free : Freedom} (quiet : Quiet start) (runnable : Runnable start)
    (allowed : MemoOk free memo) :
    (dedupWrites start memo = [] ∧ Steps free.garbage (IsFile start.disk) start.disk (sharesOf start.disk)
        (scanBelow (IsFile start.disk) NINODES) (sharesOf start.disk)) ∨ Redirected start (dedupWrites start memo) := by
  have correct : FsWp free dedup start _ _ := dedup_wp quiet
  unfold dedupWrites
  cases ran : dedup (start, memo) with
  | ok value next =>
    obtain ⟨⟨image, between⟩, _⟩ := correct.returned allowed ran
    obtain ⟨writes, trace, _, shape⟩ := between.journal
    simp only [endState, trace, List.drop_left]
    refine shape.imp_left fun untouched => ⟨untouched.1, ?_⟩
    have steps := between.steps
    rw [untouched.2] at steps
    exact steps
  | error reason next =>
    rcases correct.stopped allowed ran with unrunnable | ⟨_, writes, trace, redirected⟩
    · exact absurd runnable unrunnable
    · simp only [endState, trace, List.drop_left]
      exact .inr redirected

theorem not_redirectable_of_untouched {blocks : Blocks} (steps : Steps false (IsFile blocks) blocks (sharesOf blocks)
      (scanBelow (IsFile blocks) NINODES) (sharesOf blocks)) (p c : Pointer) : ¬ Redirectable blocks p c := by
  intro pair
  have present : pointersOf blocks p ≠ 0 := pair.found.filled
  obtain ⟨current, next, step, result, past, future⟩ := steps.visited
    (mem_scanBelow.mpr ⟨pair.file, pair.file.2.1, pointersOf_bounded present⟩)
  have unchanged : current.ptr = (sharesOf blocks).ptr := by
    funext q
    by_cases earlier : Before q p
    · exact past q earlier
    · exact future q earlier
  have found : Match blocks current p c := by
    obtain ⟨filled, present, different, same⟩ := pair.found
    exact ⟨unchanged ▸ filled, unchanged ▸ present, unchanged ▸ different, unchanged ▸ same⟩
  cases step with
  | hole empty => exact found.filled empty
  | unique filled missed =>
    rcases missed c pair.candidate found with skips | ⟨impossible, _⟩
    · apply pair.unskipped
      unfold Skips at skips ⊢
      rwa [unchanged] at skips
    · cases impossible
  | shared d candidate other taken first =>
    simp only [Shares.redirect, update_self] at result
    apply other.different
    rw [result, unchanged]

theorem refWrite_sector (blocks : Blocks) (sector : Nat) (value : Byte) :
    (refWrite blocks sector value).1 = 29 ∨ (refWrite blocks sector value).1 = 30 := by
  simp only [refWrite, refSector]
  split
  · exact .inl rfl
  · exact .inr rfl

theorem refOf_refWrite {blocks : Blocks} {sector other : Nat} (value : Byte)
    (bounded : sector < 2 * BSIZE) (otherBounded : other < 2 * BSIZE) :
    refOf (afterWrites blocks [refWrite blocks sector value]) other =
      if other = sector then value else refOf blocks other := by
  exact refOf_update_set value bounded otherBounded

theorem DedupCrashSafe.recovered {goal : Blocks} (safe : DedupCrashSafe start memo) (crash : Nat)
    (recoverable : Recoverable LOGSTART LOGSIZE goal (afterWrites start.disk ((dedupWrites start memo).take crash))) :
    ∃ after, CrashSafe start.disk after ∧ ∀ sector < LOGSTART, after sector = goal sector := by
  obtain ⟨recovered, memo', ran, safely⟩ := safe crash {} memoOk_empty
  obtain ⟨recovered', memo'', ran', same⟩ := recoverable.recovers .refl memoOk_empty
  rw [ran] at ran'
  cases ran'
  exact ⟨_, safely, fun sector below => same sector (.inl below)⟩

theorem users_of_same (consistent : Consistent start.disk) {after goal : Blocks}
    (same : ∀ sector < LOGSTART, after sector = goal sector)
    (kept : ∀ sector < LOGSTART, sector ≠ BITMAP → sector ≠ 29 → sector ≠ 30 →
      goal sector = start.disk sector) (sector : Nat) : users pointers (pointersOf after) sector =
      users pointers (pointersOf start.disk) sector := by
  have pointer : pointersOf after = pointersOf start.disk := by
    funext p
    refine pointersOf_congr consistent (fun inum bounded => ?_) (fun sector data => ?_) p
    · have low : IBLOCK inum < BITMAP := by
        simp only [IBLOCK, IPB, BSIZE, NINODES, BITMAP] at *
        omega
      simp only [BITMAP, LOGSTART] at *
      rw [same _ (by omega), kept _ (by omega) (by omega) (by omega) (by omega)]
    · have lower := data.1
      simp only [DATASTART, BITMAP] at *
      rw [same _ data.2, kept _ data.2 (by omega) (by omega) (by omega)]
  rw [pointer]

theorem not_crashSafe_of_lowered (quiet : Quiet start) {target old : Nat} {rest : List (Nat × Block)}
    (shape : dedupWrites start memo = redirectWrites start.disk target old ++ rest)
    (targetData : IsData target) (oldData : IsData old) (different : old ≠ target)
    (counted : refOf start.disk old ≠ 0) : ¬ DedupCrashSafe start memo := by
  intro safe
  have oldBound := (isData_bounds oldData).1
  have targetBound := (isData_bounds targetData).1
  have raised : refOf (afterWrites start.disk [raiseWrite start.disk target]) old = refOf start.disk old := by
    rw [raiseWrite, refOf_refWrite _ targetBound oldBound, if_neg different]
  have writes : (dedupWrites start memo).take 2 = [raiseWrite start.disk target,
      refWrite (afterWrites start.disk [raiseWrite start.disk target]) old (refOf start.disk old - 1)] := by
    rw [shape, redirectWrites, dropWrites, raised, if_neg counted]
    rfl
  have untouched : ∀ sector, sector ≠ 29 → sector ≠ 30 →
      afterWrites start.disk ((dedupWrites start memo).take 2) sector = start.disk sector := by
    intro sector first second
    rw [writes]
    refine afterWrites_of_not_mem fun member => ?_
    obtain ⟨write, included, rfl⟩ := List.mem_map.mp member
    rw [List.mem_cons, List.mem_singleton] at included
    rcases included with rfl | rfl
    · exact (refWrite_sector _ _ _).elim first second
    · exact (refWrite_sector _ _ _).elim first second
  obtain ⟨after, safely, same⟩ := safe.recovered 2 (Recoverable.of_empty_header
    (by rw [untouched LOGSTART (by decide) (by decide)]; exact quiet.header) (by decide)
    fun _ _ => rfl)
  have count := safely.counted old (fun zero => absurd oldData.1 (by rw [zero]; decide))
  rw [users_of_same quiet.consistent same (fun sector _ _ first second => untouched sector first second)] at count
  have lowered : refOf after old = refOf start.disk old - 1 := by
    have place : after (refSector old) = afterWrites start.disk ((dedupWrites start memo).take 2) (refSector old) := by
      apply same
      simp only [refSector, LOGSTART]
      split <;> omega
    rw [refOf, place, writes, afterWrites_cons, ← afterWrites_nil
      (update start.disk (raiseWrite start.disk target).1 (raiseWrite start.disk target).2),
      ← afterWrites_cons]
    exact (refOf_refWrite _ oldBound oldBound).trans (if_pos rfl)
  have before := quiet.consistent.accounted.ref old oldData
  have positive : (refOf start.disk old).toNat ≠ 0 := fun zero =>
    counted (BitVec.eq_of_toNat_eq zero)
  rw [lowered, toNat_sub_one counted] at count
  change (refOf start.disk old).toNat = users pointers (pointersOf start.disk) old - 1 at before
  omega

theorem not_crashSafe_of_freed (quiet : Quiet start) {target old : Nat} {rest : List (Nat × Block)}
    (shape : dedupWrites start memo = redirectWrites start.disk target old ++ rest)
    (targetData : IsData target) (oldData : IsData old) (different : old ≠ target)
    (pointed : 0 < users pointers (pointersOf start.disk) old)
    (last : refOf start.disk old = 0) : ¬ DedupCrashSafe start memo := by
  intro safe
  have oldBound := isData_bounds oldData
  have targetBound := (isData_bounds targetData).1
  have raised : refOf (afterWrites start.disk [raiseWrite start.disk target]) old = 0 := by
    rw [raiseWrite, refOf_refWrite _ targetBound oldBound.1, if_neg different, last]
  have raisedSector := refWrite_sector start.disk target (refOf start.disk target + 1)
  have apart : ∀ sector, sector ≠ 29 → sector ≠ 30 →
      afterWrites start.disk [raiseWrite start.disk target] sector = start.disk sector := by
    intro sector first second
    refine afterWrites_of_not_mem fun member => ?_
    rw [List.map_singleton, List.mem_singleton] at member
    exact raisedSector.elim (member ▸ first) (member ▸ second)
  have writes : (dedupWrites start memo).take 3 = [raiseWrite start.disk target,
      (LOGSTART + 1, (start.disk BITMAP).clearBit old),
      (LOGSTART, putHead (start.disk LOGSTART) [BITMAP])] := by
    rw [shape, redirectWrites, dropWrites, if_pos raised, apart BITMAP (by decide) (by decide),
      apart LOGSTART (by decide) (by decide)]
    rfl
  have crashed : afterWrites start.disk ((dedupWrites start memo).take 3) =
      update (update (afterWrites start.disk [raiseWrite start.disk target])
        (LOGSTART + 1) ((start.disk BITMAP).clearBit old)) LOGSTART
        (putHead (start.disk LOGSTART) [BITMAP]) := by
    rw [writes]
    rfl
  have head : headSectors (afterWrites start.disk ((dedupWrites start memo).take 3) LOGSTART) = [BITMAP] := by
    rw [crashed]
    exact headSectors_putHead _ [BITMAP] (by decide) (by simp [BITMAP])
  -- The header commits the cleared bitmap, so recovery installs it.
  have recoverable : Recoverable LOGSTART LOGSIZE
      (update (afterWrites start.disk [raiseWrite start.disk target]) BITMAP ((start.disk BITMAP).clearBit old))
      (afterWrites start.disk ((dedupWrites start memo).take 3)) := by
    refine ⟨⟨?_, ?_⟩, ?_, ?_⟩
    · rw [head]
      intro sector member
      rw [List.mem_singleton.mp member]
      exact .inl (by decide)
    · rw [head]
      decide
    · rw [head]
      intro position sector found
      obtain ⟨rfl, rfl⟩ : position = 0 ∧ BITMAP = sector := by
        cases position with
        | zero => exact ⟨rfl, Option.some.inj found⟩
        | succ position => simp at found
      rw [crashed, update_of_ne (by decide), update_self, update_self]
    · rw [head]
      intro sector outside home
      have notBitmap : sector ≠ BITMAP := fun bitmap => home (bitmap ▸ List.mem_singleton_self _)
      have notHeader : sector ≠ LOGSTART ∧ sector ≠ LOGSTART + 1 := by
        simp only [OutsideLog, LOGSTART, LOGSIZE] at *
        omega
      rw [crashed, update_of_ne notHeader.1, update_of_ne notHeader.2, update_of_ne notBitmap]
  obtain ⟨after, safely, same⟩ := safe.recovered 3 recoverable
  have count := safely.used old (fun zero => absurd oldData.1 (by rw [zero]; decide))
  rw [users_of_same quiet.consistent same fun sector _ bitmap first second => by
    rw [update_of_ne bitmap, apart sector first second]] at count
  have marked := count pointed
  rw [usedOf, same BITMAP (by decide), update_self, Bytes.bit_clearBit _ oldBound.2] at marked
  simp at marked

theorem not_crashSafe_of_redirected (quiet : Quiet start)
    (redirected : Redirected start (dedupWrites start memo)) : ¬ DedupCrashSafe start memo := by
  obtain ⟨p, c, rest, pair, shape⟩ := redirected
  have old := pair.found.filled
  have oldData := quiet.consistent.data p old
  have targetData := quiet.consistent.data c pair.found.present
  have pointed : 0 < users pointers (pointersOf start.disk) (pointersOf start.disk p) :=
    users_pos_iff.mpr ⟨p, mem_pointers.mpr ⟨⟨pair.file.1, pair.file.2.1⟩, pointersOf_bounded old⟩, rfl⟩
  by_cases last : refOf start.disk (pointersOf start.disk p) = 0
  · exact not_crashSafe_of_freed quiet shape targetData oldData pair.found.different.symm pointed last
  · exact not_crashSafe_of_lowered quiet shape targetData oldData pair.found.different.symm last

end FirstRedirection

/-! ## When `dedup` is crash safe -/

section Safety

variable {start : State} {memo : Memo}

theorem dedupCrashSafe_of_no_writes (quiet : Quiet start) (none : dedupWrites start memo = []) :
    DedupCrashSafe start memo := by
  intro crash rebootMemo allowed
  rw [none, List.take_nil]
  have recoverable : Recoverable LOGSTART LOGSIZE start.disk start.disk :=
    .of_empty_header quiet.header (by decide) fun _ _ => rfl
  obtain ⟨recovered, memo', ran, same⟩ := recoverable.recovers .refl allowed
  exact ⟨recovered, memo', ran, crashSafe_of_same quiet.consistent fun sector below => same sector (.inl below)⟩

/-- Deduplication is crash safe just when it has nothing to redirect. -/
theorem dedup_crash_safe_iff (quiet : Quiet start) (runnable : Runnable start) :
    (MemoOk .full memo → (∀ p c, ¬ Redirectable start.disk p c) → DedupCrashSafe start memo) ∧
    (MemoOk .tidy memo → (DedupCrashSafe start memo ↔ ∀ p c, ¬ Redirectable start.disk p c)) := by
  have sufficient : ∀ {free}, MemoOk free memo → (∀ p c, ¬ Redirectable start.disk p c) →
      DedupCrashSafe start memo := by
    intro free allowed distinct
    rcases dedupWrites_cases quiet runnable allowed with ⟨none, _⟩ | ⟨p, c, _, pair, _⟩
    · exact dedupCrashSafe_of_no_writes quiet none
    · exact absurd pair (distinct p c)
  refine ⟨sufficient, fun allowed => ⟨fun safe p c => ?_, sufficient allowed⟩⟩
  rcases dedupWrites_cases quiet runnable allowed with ⟨_, steps⟩ | redirected
  · exact not_redirectable_of_untouched steps p c
  · exact absurd safe (not_crashSafe_of_redirected quiet redirected)

def lone : Sample := [((2, 0), 31)]

theorem dedup_crash_safe_lone : DedupCrashSafe (lone.state zeroes) {} := by
  refine ((dedup_crash_safe_iff (Sample.quiet (by decide) headSectors_zero)
    (Sample.runnable (by decide))).2 memoOk_tidy_empty).mpr fun p c pair => ?_
  have valid : lone.Valid := by decide
  have only : ∀ q, pointersOf (lone.disk zeroes) q ≠ 0 → pointersOf (lone.disk zeroes) q = 31 := by
    intro q present
    rw [Sample.pointersOf_disk valid] at present ⊢
    have listed := (Sample.ptr_eq_iff valid present).mp rfl
    exact (Prod.ext_iff.mp (List.mem_singleton.mp listed)).2
  exact pair.found.different ((only c pair.found.present).trans (only p pair.found.filled).symm)

/-- Two equal blocks of one file: a crash loses the count or the bitmap bit. -/
theorem dedup_unsafe_twins : ¬ DedupCrashSafe (twins.state zeroes) {} := by
  have valid : twins.Valid := by decide
  obtain ⟨first, file, filled, old⟩ :=
    Sample.occurs_of_mem zeroes valid (show ((2, 0), 31) ∈ twins by decide)
  obtain ⟨second, _, present, target⟩ :=
    Sample.occurs_of_mem zeroes valid (show ((2, 1), 32) ∈ twins by decide)
  have different : pointersOf (twins.disk zeroes) (2, 1) ≠ pointersOf (twins.disk zeroes) (2, 0) := by
    decide
  have pair : Redirectable (twins.disk zeroes) (2, 0) (2, 1) :=
    ⟨file, ⟨by decide, .inl ⟨rfl, by decide⟩⟩, ⟨filled, present, different, old.trans target.symm⟩,
      fun skips => skips.1 rfl⟩
  rcases dedupWrites_cases twins_quiet (Sample.runnable valid) memoOk_tidy_empty with
    ⟨_, steps⟩ | redirected
  · exact absurd pair (not_redirectable_of_untouched steps _ _)
  · exact not_crashSafe_of_redirected twins_quiet redirected

end Safety

end Xv6Dedup
