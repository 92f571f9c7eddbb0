import Xv6Dedup.Dedup.Simulation
import Xv6Dedup.Kernel.Image

/-!
# What deduplication leaves behind

The disk after a completed run is the image of the abstract pass. Files keep
their contents, and the accounts of the blocks stay right.
-/

set_option autoImplicit false

namespace Xv6Dedup

open Sharing

section Outcome

variable {free : Freedom} {start state : State} {image : Image}

variable {done : List Pointer} {inum : Nat}

variable (between : Between free start done image state)
include between

theorem Between.represents : Represents start.disk image none state.disk := by
  have synced : state.data = state.disk := funext fun sector =>
    between.core.calm.synced sector (Finset.notMem_empty _)
  rw [← synced]
  exact between.core.blocks

theorem Between.inode (bounded : inum < NINODES) : dinodeOf state.disk inum = fileInode start.disk image inum :=
  between.represents.inodes inum bounded nofun

theorem Between.type (bounded : inum < NINODES) :
    (dinodeOf state.disk inum).type = (dinodeOf start.disk inum).type := by
  rw [between.inode bounded, fileInode_type]

theorem Between.allocated_iff (inum : Nat) : Allocated state.disk inum ↔ Allocated start.disk inum :=
  and_congr_right fun _ => and_congr_right fun bounded => by rw [between.type bounded]

theorem Between.table (bounded : inum < NINODES) :
    (dinodeOf state.disk inum).addr NDIRECT = (dinodeOf start.disk inum).addr NDIRECT := by
  rw [between.inode bounded, addr_fileInode_table]

theorem Between.tableOf_iff (inum table : Nat) : TableOf state.disk inum table ↔ TableOf start.disk inum table := by
  unfold TableOf
  rw [between.allocated_iff]
  constructor
  · rintro ⟨allocated, same, present⟩
    rw [between.table allocated.2.1] at same
    exact ⟨allocated, same, present⟩
  · rintro ⟨allocated, same, present⟩
    refine ⟨allocated, ?_, present⟩
    rw [between.table allocated.2.1]
    exact same

theorem Between.isTable_iff (sector : Nat) : IsTable state.disk sector ↔ IsTable start.disk sector := by
  unfold IsTable
  simp only [between.tableOf_iff]

theorem Between.otherTable (quiet : Quiet start) (allocated : Allocated start.disk inum)
    (notFile : ¬ IsFile start.disk inum) (present : (dinodeOf start.disk inum).addr NDIRECT ≠ 0) :
    state.disk ((dinodeOf start.disk inum).addr NDIRECT) = start.disk ((dinodeOf start.disk inum).addr NDIRECT) := by
  have table : TableOf start.disk inum ((dinodeOf start.disk inum).addr NDIRECT) :=
    ⟨allocated, rfl, present⟩
  refine between.represents.contents _ (quiet.consistent.tables inum _ table) ?_
  rintro ⟨other, file, same⟩
  have equal := quiet.consistent.tablesOwned other inum _ ⟨file.allocated, same, present⟩ table
  exact notFile (equal ▸ file)

theorem Between.pointersOf_eq (quiet : Quiet start) (files : ∀ q ∈ done, IsFile start.disk q.1) (q : Pointer) :
    pointersOf state.disk q = image.ptr q := by
  obtain ⟨inum, index⟩ := q
  have kept : ¬ IsFile start.disk inum → image.ptr (inum, index) = pointersOf start.disk (inum, index) := fun notFile =>
    between.steps.other fun visited => notFile (files _ visited)
  by_cases allocated : Allocated start.disk inum
  · rw [pointersOf, if_pos ((between.allocated_iff inum).mpr allocated)]
    by_cases file : IsFile start.disk inum
    · by_cases direct : index < NDIRECT
      · rw [blockPointer, if_pos direct, between.inode allocated.2.1]
        exact addr_fileInode file direct
      · rw [blockPointer, if_neg direct, between.table allocated.2.1]
        split
        · rename_i inTable
          have bounded : index - NDIRECT < NINDIRECT := by
            have upper := inTable.1
            simp only [MAXFILE] at upper
            omega
          rw [between.represents.tables inum file inTable.2 _ bounded, Nat.add_sub_cancel' (Nat.not_lt.mp direct)]
        · rename_i outside
          rw [eq_comm, (between.steps.contents _).1]
          simp only [sharesOf, pointersOf, blockPointer, direct, if_false, outside, ite_self]
    · rw [kept file, pointersOf, if_pos allocated, between.inode allocated.2.1, fileInode,
        if_neg file, blockPointer, blockPointer]
      split
      · rfl
      · split
        · rename_i inTable
          rw [between.otherTable quiet allocated file inTable.2]
        · rfl
  · rw [pointersOf, if_neg (mt (between.allocated_iff inum).mp allocated),
      kept fun file => allocated file.allocated, pointersOf, if_neg allocated]

theorem Between.contents (quiet : Quiet start) {q : Pointer} (present : image.ptr q ≠ 0) :
    state.disk (image.ptr q) = start.disk ((sharesOf start.disk).ptr q) := by
  rw [← (between.steps.contents q).2]
  obtain ⟨r, origin⟩ := between.steps.origin q
  rw [origin] at present ⊢
  refine between.represents.contents _ (quiet.consistent.data r present) ?_
  rintro ⟨g, file, same⟩
  exact quiet.consistent.tablesApart _ ⟨g, file.allocated, rfl, same ▸ present⟩ r same.symm

end Outcome

theorem dedup_returns {start : State} {memo : Memo} (quiet : Quiet start)
    (runnable : Runnable start) (few : FewSharers start.disk (sharesOf start.disk).ptr)
    (allowed : MemoOk .full memo) : ∃ next, dedup (start, memo) = .ok () next := by
  have correct : FsWp .full dedup start _ _ := dedup_wp quiet
  have total : FsWp .full dedup start (fun _ _ => True) (fun _ _ => False) :=
    correct.mono (fun _ _ _ => trivial) fun _ _ stopped => by
      rcases stopped with unrunnable | ⟨many, _⟩
      · exact unrunnable runnable
      · exact many few
  obtain ⟨_, next, ran, _⟩ := total.total allowed
  exact ⟨next, ran⟩

/-! ## Small file systems -/

namespace Sample

variable {sample : Sample} {content : Blocks}

theorem quiet (valid : sample.Valid) (header : headSectors (content LOGSTART) = []) : Quiet (sample.state content) where
  consistent := consistent valid
  calm := mounted_calm _ _
  logStart := rfl
  logSize := rfl
  header := by
    exact header
  cache := mounted_cached _ _

theorem runnable (valid : sample.Valid) : Runnable (sample.state content) where
  room := ⟨0, 1, by decide, rfl, rfl⟩
  linked inum file := by
    left
    have typed := file.2.2
    change (dinodeOf (sample.disk content) inum).type = T_FILE at typed
    change (dinodeOf (sample.disk content) inum).nlink ≠ 0
    rw [dinodeOf_disk valid file.2.1, inode] at typed ⊢
    split at typed
    · rw [if_pos ‹_›]
      exact Nat.one_ne_zero
    · exact absurd typed (by decide)

theorem fewSharers (valid : sample.Valid) : FewSharers (sample.disk content) (sharesOf (sample.disk content)).ptr := by
  intro value
  have listed : (pointers.filter fun p => (sharesOf (sample.disk content)).ptr p ≠ 0 ∧
      sample.disk content ((sharesOf (sample.disk content)).ptr p) = value) ⊆ (sample.map (·.1)).toFinset := by
    intro p member
    obtain ⟨_, present, _⟩ := Finset.mem_filter.mp member
    change pointersOf (sample.disk content) p ≠ 0 at present
    rw [pointersOf_disk valid] at present
    exact List.mem_toFinset.mpr (List.mem_map.mpr ⟨_, (ptr_eq_iff valid present).mp rfl, rfl⟩)
  calc sharers pointers 0 (sample.disk content) (sharesOf (sample.disk content)).ptr value
      ≤ (sample.map (·.1)).toFinset.card := Finset.card_le_card listed
    _ ≤ (sample.map (·.1)).length := List.toFinset_card_le _
    _ ≤ 256 := by
        rw [List.length_map]
        exact valid.small

end Sample

def twins : Sample := [((2, 0), 31), ((2, 1), 32)]

def zeroes : Blocks := fun _ => Bytes.zero

theorem headSectors_zero : headSectors Bytes.zero = [] := by
  simp [headSectors]

theorem memoOk_empty : MemoOk .full {} := ⟨nofun, nofun, .inl rfl⟩

theorem twins_quiet : Quiet (twins.state zeroes) := Sample.quiet (by decide) headSectors_zero

theorem twins_returns : ∃ next, dedup (twins.state zeroes, {}) = .ok () next :=
  dedup_returns twins_quiet (Sample.runnable (by decide)) (Sample.fewSharers (by decide)) memoOk_empty

/-! ## File contents -/

/-- An inode as the rest of the system sees it: its type, links, size and
indirect table, and what `readi` returns once nothing of it is cached. -/
structure SameFile (before after : Blocks) (inum : Nat) : Prop where
  type : (dinodeOf after inum).type = (dinodeOf before inum).type
  nlink : (dinodeOf after inum).nlink = (dinodeOf before inum).nlink
  size : (dinodeOf after inum).size = (dinodeOf before inum).size
  table : (dinodeOf after inum).addr NDIRECT = (dinodeOf before inum).addr NDIRECT
  reads : ∀ drivers off n memo, MemoOk .full memo →
    reread drivers after inum off n memo = reread drivers before inum off n memo

theorem readResult_congr {before after : Blocks} {old new : Dinode} (type : new.type = old.type)
    (major : new.major = old.major) (size : new.size = old.size)
    (present : ∀ index, blockPointer after new index = 0 ↔ blockPointer before old index = 0)
    (contents : ∀ index, blockPointer after new index ≠ 0 →
      after (blockPointer after new index) = before (blockPointer before old index)) (drivers : Drivers) (off n : Nat) :
    readResult drivers after new off n = readResult drivers before old off n := by
  have mapped : ∀ count, Mapped after new off count ↔ Mapped before old off count := by
    intro count
    unfold Mapped
    simp only [Ne, present]
  have bytes : ∀ count, Mapped after new off count →
      fileBytes after new off count = fileBytes before old off count := by
    intro count all
    apply List.map_congr_left
    intro k member
    rw [fileByte, fileByte, contents _ (all k (List.mem_range.mp member))]
  have result : ∀ count : Nat, (if Mapped before old off count then some ((count : Int), fileBytes after new off count)
        else none) =
      if Mapped before old off count then some ((count : Int), fileBytes before old off count)
        else none := by
    intro count
    split
    · rename_i all
      rw [bytes count ((mapped count).mpr all)]
    · rfl
  unfold readResult
  simp only [type, major, size, mapped]
  split
  · rfl
  · split
    · rfl
    · exact result _

section Contents

variable {start : State} {memo : Memo} {next : State × Memo}

theorem sameFile_of_between {free : Freedom} {done : List Pointer} {image : Image} {state : State}
    (between : Between free start done image state) (quiet : Quiet start)
    (files : ∀ q ∈ done, IsFile start.disk q.1) {inum : Nat} (positive : 1 ≤ inum)
    (bounded : inum < NINODES) : SameFile start.disk state.disk inum := by
  have inode := between.inode bounded
  refine ⟨?_, ?_, ?_, between.table bounded, ?_⟩
  · rw [inode, fileInode_type]
  · rw [inode, fileInode_nlink]
  · rw [inode]
    unfold fileInode
    split <;> rfl
  · intro drivers off n memo allowed
    rw [reread_eq drivers _ inum off n allowed, reread_eq drivers _ inum off n allowed, inode, fileInode_type, ← inode]
    split
    · rfl
    · rename_i typed
      have allocated : Allocated start.disk inum := ⟨positive, bounded, typed⟩
      have pointer : ∀ index, blockPointer state.disk (dinodeOf state.disk inum) index = image.ptr (inum, index) := by
        intro index
        rw [← between.pointersOf_eq quiet files, pointersOf, if_pos ((between.allocated_iff inum).mpr allocated)]
      have original : ∀ index, blockPointer start.disk (dinodeOf start.disk inum) index =
          (sharesOf start.disk).ptr (inum, index) := by
        intro index
        simp only [sharesOf, pointersOf, allocated, if_true]
      apply readResult_congr
      · rw [inode, fileInode_type]
      · rw [inode]
        unfold fileInode
        split <;> rfl
      · rw [inode]
        unfold fileInode
        split <;> rfl
      · intro index
        rw [pointer, original]
        exact (between.steps.contents _).1
      · intro index present
        rw [pointer] at present ⊢
        rw [original]
        exact between.contents quiet present

theorem scan_files {inum : Nat} : ∀ q ∈ scanBelow (IsFile start.disk) inum, IsFile start.disk q.1 :=
  fun _ visited => (mem_scanBelow.mp visited).1

/-- `dedup` preserves file contents. -/
theorem dedup_preserves_files (quiet : Quiet start) (allowed : MemoOk .full memo)
    (completed : dedup (start, memo) = .ok () next) (inum : Nat) (positive : 1 ≤ inum)
    (bounded : inum < NINODES) :
    SameFile start.disk next.1.disk inum ∧ ((dinodeOf start.disk inum).type ≠ T_FILE →
        dinodeOf next.1.disk inum = dinodeOf start.disk inum) := by
  obtain ⟨image, between⟩ := ((dedup_wp quiet).returned allowed completed).1
  refine ⟨sameFile_of_between between quiet scan_files positive bounded, fun otherType => ?_⟩
  rw [between.inode bounded, fileInode, if_neg fun file => otherType file.2.2]

theorem dedup_preserves_files_twins : ∃ next, dedup (twins.state zeroes, {}) = .ok () next ∧
    SameFile (twins.state zeroes).disk next.1.disk 2 := by
  obtain ⟨next, completed⟩ := twins_returns
  exact ⟨next, completed, (dedup_preserves_files twins_quiet memoOk_empty completed 2 (by decide) (by decide)).1⟩

end Contents

/-! ## Accounting -/

section Accounting

variable {start : State} {memo : Memo} {next : State × Memo}

variable {Chosen : Nat → Prop}

section

variable {free : Freedom} {content : Blocks} {p : Pointer} {image after : Image}
  (step : BlockStep free.garbage Chosen content p image after)
include step

theorem BlockStep.used (sector : Nat) : after.used sector = true → image.used sector = true := by
  cases step with
  | hole | unique => exact id
  | shared c candidate found taken first =>
    simp only [Shares.redirect, Counters.used_drop]
    split
    · rintro ⟨⟩
    · exact id

theorem BlockStep.used_other {sector : Nat} (different : image.ptr p = 0 ∨ sector ≠ image.ptr p) :
    after.used sector = image.used sector := by
  cases step with
  | hole | unique => rfl
  | shared c candidate found taken first =>
    have apart : sector ≠ image.ptr p := different.resolve_left found.filled
    simp only [Shares.redirect, Counters.used_drop, apart, and_false, if_false]
    rfl

end

section

variable {free : Freedom} {content : Blocks} {done : List Pointer} {initial image : Image}
  (steps : Steps free.garbage Chosen content initial done image)
include steps

theorem Steps.used (sector : Nat) : image.used sector = true → initial.used sector = true := by
  induction steps with
  | nil => exact id
  | snoc before step ih => exact fun set => ih (step.used sector set)

theorem Steps.used_other {sector : Nat} (unused : ∀ q, initial.ptr q ≠ 0 → initial.ptr q ≠ sector) :
    image.used sector = initial.used sector := by
  induction steps with
  | nil => rfl
  | @snoc done p image next before step ih =>
    rw [step.used_other, ih]
    by_cases zero : image.ptr p = 0
    · exact .inl zero
    · obtain ⟨r, origin⟩ := before.origin p
      rw [origin] at zero ⊢
      exact .inr (unused r zero).symm

end

theorem accounted_congr {shares others : Image} {Owned Owned' : Nat → Prop}
    (accounted : shares.Accounted pointers IsData Owned) (ptr : others.ptr = shares.ptr)
    (ref : ∀ sector, IsData sector → others.ref sector = shares.ref sector)
    (used : ∀ sector, IsData sector → others.used sector = shares.used sector)
    (owned : ∀ sector, Owned' sector ↔ Owned sector) : others.Accounted pointers IsData Owned' := by
  constructor
  · intro sector data
    rw [ref sector data, ptr]
    exact accounted.ref sector data
  · intro sector data
    rw [used sector data, ptr, owned]
    exact accounted.used sector data

theorem consistent_of_between {free : Freedom} {image : Image} {state : State}
    (between : Between free start (scanBelow (IsFile start.disk) NINODES) image state)
    (quiet : Quiet start) (few : FewSharers start.disk (sharesOf start.disk).ptr) : Consistent state.disk := by
  have pointer : pointersOf state.disk = image.ptr :=
    funext (between.pointersOf_eq quiet scan_files)
  have represents := between.represents
  have apart : ∀ q, (sharesOf start.disk).ptr q ≠ 0 → IsData ((sharesOf start.disk).ptr q) ∧
      ¬ IsTable start.disk ((sharesOf start.disk).ptr q) := fun q present =>
    ⟨quiet.consistent.data q present, fun table => quiet.consistent.tablesApart _ table q rfl⟩
  have accounted := between.steps.accounted between.visited
    (fun g file => ⟨file.1, file.2.1⟩) few apart quiet.consistent.accounted
  refine ⟨?_, ?_, ?_, ?_, ?_, ?_⟩
  · rw [represents.super]
    exact quiet.consistent.super
  · intro q present
    rw [pointer] at present ⊢
    obtain ⟨r, origin⟩ := between.steps.origin q
    rw [origin] at present ⊢
    exact (apart r present).1
  · intro inum table isTable
    exact quiet.consistent.tables inum table ((between.tableOf_iff inum table).mp isTable)
  · intro table isTable q
    rw [pointer]
    obtain ⟨r, origin⟩ := between.steps.origin q
    rw [origin]
    exact quiet.consistent.tablesApart table ((between.isTable_iff table).mp isTable) r
  · intro first second table isFirst isSecond
    exact quiet.consistent.tablesOwned first second table ((between.tableOf_iff _ _).mp isFirst)
      ((between.tableOf_iff _ _).mp isSecond)
  · exact accounted_congr accounted pointer (fun sector data => represents.ref sector (isData_bounds data).1)
      (fun sector data => represents.used sector (isData_bounds data).2) between.isTable_iff

/-- With few enough sharers `dedup` returns, keeps the accounts right, allocates
nothing, and frees a sector exactly when its last pointer was redirected. -/
theorem dedup_preserves_accounts (quiet : Quiet start)
    (few : FewSharers start.disk (sharesOf start.disk).ptr) (allowed : MemoOk .full memo) :
    (Runnable start → ∃ next, dedup (start, memo) = .ok () next) ∧ ∀ next, dedup (start, memo) = .ok () next →
        Consistent next.1.disk ∧
        ∀ sector < BPB, (usedOf next.1.disk sector = true → usedOf start.disk sector = true) ∧
          (usedOf start.disk sector = true ∧ usedOf next.1.disk sector = false ↔
            0 < users pointers (pointersOf start.disk) sector ∧
              users pointers (pointersOf next.1.disk) sector = 0) := by
  have correct : FsWp .full dedup start _ _ := dedup_wp quiet
  refine ⟨fun runnable => dedup_returns quiet runnable few allowed, fun next completed => ?_⟩
  obtain ⟨image, between⟩ := (correct.returned allowed completed).1
  have consistent := consistent_of_between between quiet few
  have pointer : pointersOf next.1.disk = image.ptr :=
    funext (between.pointersOf_eq quiet scan_files)
  refine ⟨consistent, fun sector bounded => ?_⟩
  have after := between.represents.used sector bounded
  constructor
  · intro set
    rw [after] at set
    exact between.steps.used sector set
  · by_cases data : IsData sector
    · have before := quiet.consistent.accounted.used sector data
      have now := consistent.accounted.used sector data
      simp only [sharesOf, between.isTable_iff] at before now
      rw [before, ← Bool.not_eq_true, now]
      constructor
      · rintro ⟨pointed | table, free⟩
        · exact ⟨pointed, Nat.eq_zero_of_not_pos fun still => free (.inl still)⟩
        · exact absurd (.inr table) free
      · rintro ⟨pointed, none⟩
        refine ⟨.inl pointed, ?_⟩
        rintro (still | table)
        · omega
        · obtain ⟨q, _, points⟩ := users_pos_iff.mp pointed
          exact quiet.consistent.tablesApart sector table q points
    · have unused : ∀ q, (sharesOf start.disk).ptr q ≠ 0 → (sharesOf start.disk).ptr q ≠ sector :=
        fun q present same => data (same ▸ quiet.consistent.data q present)
      have same := between.steps.used_other unused
      rw [after, same]
      constructor
      · rintro ⟨set, clear⟩
        simp only [sharesOf] at clear
        rw [set] at clear
        cases clear
      · rintro ⟨pointed, none⟩
        obtain ⟨q, member, points⟩ := users_pos_iff.mp pointed
        by_cases zero : sector = 0
        · -- holes stay holes
          have hole : pointersOf next.1.disk q = sector := by
            rw [pointer, zero, (between.steps.contents q).1, ← zero]
            exact points
          have still := users_pos_iff.mpr ⟨q, member, hole⟩
          omega
        · exact absurd points (unused q fun hole => zero (points.symm.trans hole))

theorem dedup_preserves_accounts_twins : ∃ next, dedup (twins.state zeroes, {}) = .ok () next ∧
    Consistent next.1.disk := by
  have correct := dedup_preserves_accounts twins_quiet (Sample.fewSharers (by decide)) memoOk_empty
  obtain ⟨next, completed⟩ := correct.1 (Sample.runnable (by decide))
  exact ⟨next, completed, (correct.2 next completed).1⟩

end Accounting

end Xv6Dedup
