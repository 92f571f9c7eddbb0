import Xv6Dedup.Dedup.Scan

/-!
# The whole pass

`dedup` refines the abstract pass: run alone from a consistent state it visits
every pointer of every file in order, and returns with the image of the pass on
disk.
-/

set_option autoImplicit false

namespace Xv6Dedup

open Program Sharing

theorem fileInode_type (blocks : Blocks) (image : Image) (inum : Nat) :
    (fileInode blocks image inum).type = (dinodeOf blocks inum).type := by
  unfold fileInode
  split <;> rfl

theorem fileInode_nlink (blocks : Blocks) (image : Image) (inum : Nat) :
    (fileInode blocks image inum).nlink = (dinodeOf blocks inum).nlink := by
  unfold fileInode
  split <;> rfl

theorem typed_file {blocks : Blocks} {inum : Nat} (image : Image) (file : IsFile blocks inum) :
    (fileInode blocks image inum).type ≠ 0 := by
  rw [fileInode_type, file.2.2]
  decide

section Simulation

variable {free : Freedom} {start state : State} {done : List Pointer} {image : Image} {inum : Nat}
  {ip : Slot} {extra held loose : Finset Nat} {taken locked : List Slot} {stale : Option Nat}

/-! ## The inode cache -/

theorem Core.full (core : Core start image stale held loose taken locked state)
    (alone : ∀ slot ∈ taken, ∀ other ∈ taken, slot = other) (used : ∀ slot, (state.icache slot).ref ≠ 0)
    (reason : Stop) (stopped : State) : Tolerated start reason stopped := by
  refine .inl fun runnable => ?_
  obtain ⟨first, second, different, firstFree, secondFree⟩ := runnable.room
  have taken_of_free : ∀ slot, (start.icache slot).ref = 0 → slot ∈ taken := by
    intro slot unused
    by_contra absent
    have count := core.cache.refs slot
    rw [List.count_eq_zero.mpr absent, unused] at count
    exact used slot count
  exact different (alone first (taken_of_free first firstFree) second (taken_of_free second secondFree))

theorem Core.orphan_wp {image' : Image} {changed : State}
    (core : Core start image stale held loose (ip :: taken) locked state)
    (file : IsFile start.disk inum) (number : (state.icache ip).inum = inum)
    (current : (state.icache ip).toDinode = fileInode start.disk image' inum)
    (last : (state.icache ip).ref = 1) (unlinked : (state.icache ip).nlink = 0) (unlocked : changed.log.busy = false) :
    FsWp free (iputFree ip) changed (fun _ _ => False) (Tolerated start) := by
  have unrunnable : ¬ Runnable start := by
    intro runnable
    rcases runnable.linked inum file with linked | ⟨slot, open_, same⟩
    · apply linked
      rw [← fileInode_nlink start.disk image', ← current]
      exact unlinked
    · have cached := core.cache.refs slot
      have used : 0 < (state.icache slot).ref := by omega
      have equal : slot = ip := core.cache.distinct slot ip used (by omega) (by
        rw [core.cache.inums slot open_, same, number])
      subst equal
      rw [List.count_cons_self] at cached
      omega
  exact (Wp.never (halts_iputFree _ unlocked)).mono (fun _ _ impossible => impossible) fun _ _ _ => Or.inl unrunnable

variable {icache : Slot → Inode}

theorem Inside.withCache {taken' locked' : List Slot}
    (inside : Inside free start done image inum ip extra taken locked state)
    (cached : Cached start.icache (fileInode start.disk image) taken' locked' icache) (takes : ip ∈ taken')
    (locks : ip ∈ locked') (same : icache ip = state.icache ip) :
    Inside free start done image inum ip extra taken' locked' (state.withCache icache) :=
  { inside with
    core := inside.core.withCache cached
    takes := takes
    locks := locks
    number := (congrArg Inode.inum same).trans inside.number
    current := (congrArg Inode.toDinode same).trans inside.current }

variable {g index1 : Nat} {Stops : Stop → State → Prop} {ip2 : Slot} {Post : Unit → State → Prop}
  {aSub b a : Option Nat} {p : Pointer}

theorem Core.isFile_iff (core : Core start image stale held loose taken locked state)
    (first : 1 ≤ g) (bounded : g < NINODES) (fresh : stale ≠ some g) :
    (dinodeAt (state.data (IBLOCK g)) (g % IPB)).type = T_FILE ↔ IsFile start.disk g := by
  have inode := core.blocks.inodes g bounded fresh
  rw [dinodeOf] at inode
  rw [inode, fileInode_type]
  exact ⟨fun typed => ⟨first, bounded, typed⟩, fun file => file.2.2⟩

theorem Core.inodeIdle (core : Core start image stale held loose taken locked state)
    (bounded : g < NINODES) : (state.buf (IBLOCK g)).busy = false := by
  apply core.idle
  rintro ⟨lower, _⟩
  simp only [IBLOCK, IPB, BSIZE, NINODES, DATASTART] at *
  omega

theorem getPrevInode_wp {Post : Option Slot × Nat → State → Prop} {prevInum : Nat}
    (inside : Inside free start done image inum ip extra [ip] [ip] state)
    (bounded : prevInum < NINODES)
    (absent : ∀ rest, (∀ g, inum < g → g ≤ prevInum → ¬ IsFile start.disk g) → Post (none, rest) state)
    (next : ∀ g ip2 icache, inum < g → g ≤ prevInum → IsFile start.disk g →
      (∀ h, g < h → h ≤ prevInum → ¬ IsFile start.disk h) → ip2 ≠ ip → (icache ip2).inum = g →
      Inside free start done image inum ip extra [ip2, ip] [ip] (state.withCache icache) →
      Post (some ip2, g - 1) (state.withCache icache)) :
    FsWp free (getPrevInode prevInum) state Post (Tolerated start) := by
  induction prevInum with
  | zero => exact Wp.pure (absent 0 fun g above below => by omega)
  | succ prevInum ih =>
    refine Wp.see ?_
    rw [inside.cursor]
    refine Wp.ite (fun above => ?_) (fun finished => Wp.pure (absent _ fun g above below => by omega))
    have fresh : some inum ≠ some (prevInum + 1) := fun same => by
      have equal := Option.some.inj same
      omega
    have typed := inside.core.isFile_iff (by omega) bounded fresh
    have idle := inside.core.inodeIdle bounded
    refine read_wp (inside.core.calm.steady free) idle ?_
    refine Wp.ite (fun isFile => ?_) (fun notFile => ?_)
    · have cached : Cached start.icache (fileInode start.disk image) [ip] [ip]
          (state.hold (IBLOCK (prevInum + 1))).icache := inside.core.cache
      refine Wp.bind (iget_wp cached (List.Subset.refl _) ?_ ?_ ?_)
      · intro other member
        rw [List.mem_singleton.mp member]
        change (state.icache ip).inum ≠ prevInum + 1
        rw [inside.number]
        omega
      · intro used
        exact inside.core.full (fun _ member _ other => (List.mem_singleton.mp member).trans
          (List.mem_singleton.mp other).symm) used _ _
      · intro ip2 icache cached' apart number frame _
        have different : ip2 ≠ ip := fun same => apart (by simp [same])
        have after := inside.withCache cached' (by simp) (by simp) (frame ip (by simp))
        change FsWp free _ ((state.withCache icache).hold (IBLOCK (prevInum + 1))) _ _
        refine Wp.bind (brelse_hold_wp idle (Wp.pure ?_))
        exact next (prevInum + 1) ip2 icache above (Nat.le_refl _) (typed.mp isFile)
          (fun h upper lower => by omega) different number after
    · have skipped : ¬ IsFile start.disk (prevInum + 1) := fun file => notFile (typed.mpr file)
      refine Wp.bind (brelse_hold_wp idle (ih (by omega) ?_ ?_))
      · intro rest none
        refine absent rest fun g above below => ?_
        by_cases here : g = prevInum + 1
        · rw [here]
          exact skipped
        · exact none g above (by omega)
      · intro g ip2 icache above below file none
        refine next g ip2 icache above (by omega) file fun h upper lower => ?_
        by_cases here : h = prevInum + 1
        · rw [here]
          exact skipped
        · exact none h upper (by omega)

/-! ## The other files -/

theorem tableSectors_apart (quiet : Quiet start) {h sector : Nat} (file : IsFile start.disk g)
    (otherFile : IsFile start.disk h) (different : g ≠ h)
    (member : sector ∈ tableSectors start.disk g) : sector ∉ tableSectors start.disk h := by
  intro other
  obtain ⟨same, nonzero⟩ := mem_tableSectors.mp member
  obtain ⟨otherSame, _⟩ := mem_tableSectors.mp other
  exact different (quiet.consistent.tablesOwned g h sector ⟨file.allocated, same, nonzero⟩
    ⟨otherFile.allocated, otherSame, nonzero⟩)

theorem loadTable_wp {Post : Option Nat × Nat → State → Prop} {previous : Option Nat}
    (inside : Inside free start done image inum ip extra taken locked state) (quiet : Quiet start)
    (file : IsFile start.disk g) (other : g ≠ inum)
    (plain : ∀ sector ∈ tableSectors start.disk g, sector ∉ extra)
    (current : (state.icache ip2).toDinode = fileInode start.disk image g)
    (next : ∀ table after, HasTable start.disk g table → Inside free start done image inum ip (extra ∪ tableSectors start.disk g) taken locked after → after.icache = state.icache → Post (table, indirects start.disk g) after) :
    FsWp free (loadTable ip2 previous) state Post Stops := by
  refine Wp.peek ?_
  have table : (state.icache ip2).addr NDIRECT = (dinodeOf start.disk g).addr NDIRECT := by
    rw [current, addr_fileInode_table]
  rw [table]
  refine Wp.ite (fun zero => ?_) (fun nonzero => ?_)
  · have none : tableSectors start.disk g = ∅ := if_pos zero
    have count : indirects start.disk g = 0 := if_pos zero
    have after := next previous state (fun present => absurd zero present) (by
      rw [none, Finset.union_empty]
      exact inside) rfl
    rw [count] at after
    exact Wp.pure after
  · have one : tableSectors start.disk g = {(dinodeOf start.disk g).addr NDIRECT} := if_neg nonzero
    have count : indirects start.disk g = NINDIRECT := if_neg nonzero
    have member : (dinodeOf start.disk g).addr NDIRECT ∈ tableSectors start.disk g :=
      mem_tableSectors.mpr ⟨rfl, nonzero⟩
    have idle : (state.buf ((dinodeOf start.disk g).addr NDIRECT)).busy = false := by
      apply inside.core.calm.idle
      rw [Finset.mem_union, not_or]
      exact ⟨tableSectors_apart quiet file inside.file other member, plain _ member⟩
    have held := inside.hold (tableData quiet.consistent file nonzero)
    have after := next (some ((dinodeOf start.disk g).addr NDIRECT))
      (state.hold ((dinodeOf start.disk g).addr NDIRECT)) (fun _ => rfl) (by
      rw [one, Finset.union_comm]
      exact held) rfl
    rw [count] at after
    exact Wp.bind (bread_wp (inside.core.calm.steady free) idle (Wp.pure after))

theorem releaseTable_wp {table : Option Nat}
    (inside : Inside free start done image inum ip (extra ∪ tableSectors start.disk g) taken locked state)
    (quiet : Quiet start) (file : IsFile start.disk g) (other : g ≠ inum)
    (plain : ∀ sector ∈ tableSectors start.disk g, sector ∉ extra)
    (current : (state.icache ip2).addr NDIRECT = (dinodeOf start.disk g).addr NDIRECT)
    (set : HasTable start.disk g table)
    (next : ∀ after, Inside free start done image inum ip extra taken locked after → after.icache = state.icache → Post () after) :
    FsWp free (releaseTable ip2 table) state Post Stops := by
  refine Wp.peek ?_
  rw [current]
  refine Wp.ite (fun zero => ?_) (fun nonzero => ?_)
  · have none : tableSectors start.disk g = ∅ := if_pos zero
    rw [none, Finset.union_empty] at inside
    exact Wp.pure (next state inside rfl)
  · have one : tableSectors start.disk g = {(dinodeOf start.disk g).addr NDIRECT} := if_neg nonzero
    have member : (dinodeOf start.disk g).addr NDIRECT ∈ tableSectors start.disk g :=
      mem_tableSectors.mpr ⟨rfl, nonzero⟩
    rw [one, Finset.union_comm] at inside
    rw [set nonzero]
    refine brelse_wp ((inside.core.calm.busy _).mpr (by simp)) (next _ ?_ rfl)
    exact inside.release (plain _ member) (tableSectors_apart quiet file inside.file other member)

theorem unlockOther_wp {image' : Image} (inside : Inside free start done image inum ip extra [ip2, ip] [ip2, ip] state)
    (different : ip2 ≠ ip) (file : IsFile start.disk g) (number : (state.icache ip2).inum = g)
    (current : (state.icache ip2).toDinode = fileInode start.disk image' g)
    (next : ∀ after, Inside free start done image inum ip extra [ip] [ip] after → Post () after) :
    FsWp free (iunlockput ip2) state Post (Tolerated start) := by
  refine iunlockput_wp inside.core.cache (by simpa using different) ?_ ?_
  · intro last unlinked
    exact inside.core.orphan_wp file number current last unlinked inside.core.calm.logFree
  · intro icache cached frame
    exact next _ (inside.withCache cached (by simp) (by simp) (frame ip different.symm))

/-- The pointer `p` has been visited and everything taken for it is given back. -/
def Visited (free : Freedom) (start : State) (done : List Pointer) (inum : Nat) (ip : Slot)
    (p : Pointer) (after : State) : Prop :=
  ∃ image, Inside free start (done ++ [p]) image inum ip ∅ [ip] [ip] after

variable {count : Nat}

section

variable (quiet : Quiet start) (named : Names start.disk inum aSub index1 p) (member : p ∈ pointers)
  (own : p.1 = inum) (filled : image.ptr p ≠ 0)
include quiet named member own filled

theorem crossFile_wp {Post : Bool × Option Nat → State → Prop}
    (inside : Inside free start done image inum ip {image.ptr p} [ip2, ip] [ip] state) (file : IsFile start.disk g) (above : inum < g)
    (different : ip2 ≠ ip) (number : (state.icache ip2).inum = g)
    (higher : MissedAbove free start image p g)
    (shared : ∀ table after, Visited free start done inum ip p after → Post (true, table) after)
    (kept : ∀ table after, Inside free start done image inum ip {image.ptr p} [ip] [ip] after → MissedFrom free start image p g 0 → Post (false, table) after) :
    FsWp free (crossFile ip ip2 aSub (image.ptr p) index1 b) state Post (Tolerated start) := by
  have other : g ≠ inum := by omega
  have fresh : some inum ≠ some g := fun same => other (Option.some.inj same).symm
  have inode := inside.core.blocks.inodes g file.2.1 fresh
  have typed := typed_file image file
  have alone : ∀ sector ∈ tableSectors start.disk g, sector ∉ ({image.ptr p} : Finset Nat) := by
    intro sector table same
    rw [Finset.mem_singleton.mp same] at table
    exact inside.plain quiet filled file table
  refine Wp.bind (ilock_wp inside.core.cache (by simp) (by simpa using different) number
    (inside.core.calm.steady free) (inside.core.inodeIdle file.2.1) inode typed ?_)
  intro icache cached current number' frame
  have locked := inside.withCache cached (by simp) (by simp) (frame ip different.symm)
  refine Wp.bind (loadTable_wp locked quiet file other alone current ?_)
  intro table loaded hasTable loadedInside loadedCache
  have current' : (loaded.icache ip2).toDinode = fileInode start.disk image g := by
    rw [loadedCache]
    exact current
  have number'' : (loaded.icache ip2).inum = g := by
    rw [loadedCache]
    exact number'
  have again := loadedInside
  -- the table is released and the inode unlocked, whether or not a match was found
  have finish : ∀ (found : Bool) (after : State) (done' : List Pointer) (image' : Image) (extra' : Finset Nat),
      Inside free start done' image' inum ip (extra' ∪ tableSectors start.disk g) [ip2, ip] [ip2, ip] after →
      after.icache ip2 = loaded.icache ip2 →
      (∀ sector ∈ tableSectors start.disk g, sector ∉ extra') →
      (∀ final, Inside free start done' image' inum ip extra' [ip] [ip] final → Post (found, table) final) →
      FsWp free (do
        releaseTable ip2 table
        iunlockput ip2
        pure (found, table)) after Post (Tolerated start) := by
    intro found after done' image' extra' searched same apart next
    refine Wp.bind (releaseTable_wp searched quiet file other apart ?_ hasTable ?_)
    · rw [same, current', addr_fileInode_table]
    · intro released releasedInside releasedCache
      have kept' : released.icache ip2 = loaded.icache ip2 := by rw [releasedCache, same]
      rw [← kept'] at number'' current'
      exact Wp.bind (unlockOther_wp releasedInside different file number'' current'
        fun final ended => Wp.pure (next final ended))
  refine Wp.bind (Wp.searchDown (fun index current => current = loaded ∧
    MissedFrom free start image p g index) ?_ ⟨rfl, ?_⟩ ?_)
  · rintro index _ _ bounded ⟨rfl, missed⟩
    refine crossFileRound_wp again quiet named member own filled file above current' hasTable
      (by omega) higher missed ?_ fun now => ⟨rfl, now⟩
    rintro after ⟨image', redirected, same⟩
    refine finish true after _ image' ∅ ?_ (same ip2 different) (by simp) fun final ended =>
      shared _ _ ⟨image', ended⟩
    rw [Finset.empty_union]
    exact redirected
  · rw [Nat.zero_add]
    exact MissedFrom.past inside p g
  · rintro _ ⟨rfl, missed⟩
    exact finish false _ _ image _ loadedInside rfl alone fun final ended =>
      kept _ _ ended missed

theorem crossFiles_wp {Post : Bool × Option Nat → State → Prop} {prevInum : Nat}
    (inside : Inside free start done image inum ip {image.ptr p} [ip] [ip] state)
    (bounded : prevInum < NINODES) (enough : prevInum < count)
    (higher : MissedAbove free start image p prevInum)
    (shared : ∀ table after, Visited free start done inum ip p after → Post (true, table) after)
    (kept : ∀ table after, Inside free start done image inum ip {image.ptr p} [ip] [ip] after → (∀ d, Candidate (IsFile start.disk) p d → Missed free.garbage start.disk image p d) → Post (false, table) after) :
    FsWp free (crossFiles ip aSub (image.ptr p) index1 count prevInum b) state Post (Tolerated start) := by
  induction count generalizing prevInum b state with
  | zero => omega
  | succ count ih =>
    refine Wp.bind (getPrevInode_wp inside bounded ?_ ?_)
    · intro rest none
      refine Wp.pure (kept b state inside fun d candidate => ?_)
      refine higher d candidate (candidate.2.imp And.left fun other => ?_)
      by_contra low
      exact none d.1 (own ▸ other.1) (by omega) other.2
    · intro g ip2 icache above below file none different number inside'
      have higher' : MissedAbove free start image p g := by
        rintro d candidate (same | past)
        · exact higher d candidate (.inl same)
        · refine higher d candidate (candidate.2.imp And.left fun other => ?_)
          by_contra low
          exact none d.1 past (by omega) other.2
      refine Wp.bind (crossFile_wp quiet named member own filled inside' file above different number higher' ?_ ?_)
      · intro table after found
        exact Wp.pure (shared table after found)
      · intro table after continued missed
        refine ih continued (by omega) (by omega) ?_
        rintro d candidate (same | past)
        · exact higher' d candidate (.inl same)
        · by_cases here : d.1 = g
          · exact missed d candidate here (Nat.zero_le _)
          · exact higher' d candidate (.inr (by omega))

/-! ## One block -/

theorem finishBlock_wp {Post : Option Nat → State → Prop}
    (inside : Inside free start done image inum ip {image.ptr p} [ip] [ip] state)
    (missed : MissedFrom free start image p inum (p.2 + 1))
    (next : ∀ table after, Visited free start done inum ip p after → Post table after) :
    FsWp free (finishBlock ip NINODES aSub (image.ptr p) index1 false b) state Post (Tolerated start) := by
  have higher : MissedAbove free start image p (NINODES - 1) := by
    intro d candidate place
    rcases candidate.2 with ⟨same, later⟩ | ⟨above, file⟩
    · exact missed d candidate (same.trans own) later
    · have bounded := file.2.1
      omega
  refine Wp.bind (crossFiles_wp quiet named member own filled inside (by decide) (by decide) higher ?_ ?_)
  · intro table after visited
    exact Wp.pure (next table after visited)
  · intro table after kept none
    refine Wp.bind (brelse_wp ((kept.core.calm.busy _).mpr (by simp)) (Wp.pure (next _ _ ?_)))
    rw [← insert_empty_eq] at kept
    have released := kept.release (by simp) (inside.plain quiet filled inside.file)
    exact ⟨image, released.visit member (.unique filled none)⟩

end

theorem dedupBlock_wp {Post : Option Nat → State → Prop}
    (inside : Inside free start done image inum ip ∅ [ip] [ip] state) (quiet : Quiet start)
    (table : HasTable start.disk inum a) (bounded : index1 < NDIRECT + indirects start.disk inum)
    (next : ∀ b after, Visited free start done inum ip (inum, index1) after → Post b after) :
    FsWp free (dedupBlock ip NINODES (indirects start.disk inum) a index1 b) state Post (Tolerated start) := by
  have member := pointer_mem inside bounded
  have hole : image.ptr (inum, index1) = 0 → Post b state := fun zero =>
    next b state ⟨image, inside.visit member (.hole zero)⟩
  -- the block is read and the own file searched before the others
  have opened : image.ptr (inum, index1) ≠ 0 → (state.buf (image.ptr (inum, index1))).busy = false ∧
      Inside free start done image inum ip {image.ptr (inum, index1)} [ip] [ip]
        (state.hold (image.ptr (inum, index1))) := by
    intro filled
    refine ⟨inside.core.calm.idle ?_, ?_⟩
    · rw [Finset.union_empty]
      exact inside.plain quiet filled inside.file
    · exact inside.hold (inside.data quiet filled).1
  refine Wp.ite (fun direct => ?_) (fun past => ?_)
  · refine Wp.bind (addrsAt_wp inside.file inside.current direct ?_)
    refine Wp.ite (fun zero => Wp.pure (hole zero)) (fun filled => ?_)
    obtain ⟨idle, reading⟩ := opened filled
    refine Wp.bind (bread_wp (inside.core.calm.steady free) idle ?_)
    refine Wp.bind (Wp.searchDown (fun index current =>
      current = state.hold (image.ptr (inum, index1)) ∧
        MissedFrom free start image (inum, index1) inum index) ?_ ⟨rfl, ?_⟩ ?_)
    · rintro index _ later upper ⟨rfl, missed⟩
      refine sameFileDirect_wp reading quiet table direct filled (by omega) (by omega) missed ?_ fun now => ⟨rfl, now⟩
      rintro after ⟨image', visited, _⟩
      exact Wp.pure (next _ _ ⟨image', visited⟩)
    · rw [Nat.add_sub_cancel' (by omega)]
      exact MissedFrom.past inside _ _
    · rintro _ ⟨rfl, missed⟩
      exact finishBlock_wp quiet (.direct direct) member rfl filled reading missed next
  · obtain ⟨present, inTable⟩ := indirects_pos bounded past
    obtain ⟨offset, rfl⟩ := Nat.exists_eq_add_of_le (Nat.not_lt.mp past)
    rw [Nat.add_sub_cancel_left] at inTable
    have held : (dinodeOf start.disk inum).addr NDIRECT ∈ tableSectors start.disk inum :=
      mem_tableSectors.mpr ⟨rfl, present⟩
    rw [table present]
    simp only [Nat.add_sub_cancel_left]
    refine Wp.bind (tableAt_wp inside.core inside.file present (Finset.mem_union_left _ held) inTable ?_)
    refine Wp.ite (fun zero => Wp.pure (hole zero)) (fun filled => ?_)
    obtain ⟨idle, reading⟩ := opened filled
    refine Wp.bind (bread_wp (inside.core.calm.steady free) idle ?_)
    refine Wp.bind (Wp.searchDown (fun index current =>
      current = state.hold (image.ptr (inum, NDIRECT + offset)) ∧
        MissedFrom free start image (inum, NDIRECT + offset) inum (NDIRECT + index))
      ?_ ⟨rfl, ?_⟩ ?_)
    · rintro index _ later upper ⟨rfl, missed⟩
      refine sameFileIndirect_wp reading quiet present filled (by omega) (by omega) missed ?_ fun now => ⟨rfl, now⟩
      rintro after ⟨image', visited, _⟩
      exact Wp.pure (next _ _ ⟨image', visited⟩)
    · rw [Nat.add_sub_cancel' (by omega)]
      have whole : indirects start.disk inum = NINDIRECT := if_neg present
      rw [← whole]
      exact MissedFrom.past inside _ _
    · rintro _ ⟨rfl, missed⟩
      exact finishBlock_wp quiet (.entry present inTable) member rfl filled reading missed next

/-! ## One file -/

variable {before : List Pointer}

theorem dedupBlocks_wp {Post : Option Nat → State → Prop}
    (inside : Inside free start (before ++ row inum index1) image inum ip ∅ [ip] [ip] state)
    (quiet : Quiet start) (table : HasTable start.disk inum a)
    (bounded : index1 + count ≤ NDIRECT + indirects start.disk inum)
    (next : ∀ b image after, Inside free start (before ++ row inum (index1 + count)) image inum ip ∅ [ip] [ip] after → Post b after) :
    FsWp free (dedupBlocks ip NINODES (indirects start.disk inum) a count index1 b) state Post (Tolerated start) := by
  induction count generalizing index1 image state b with
  | zero => exact Wp.pure (next b image state inside)
  | succ count ih =>
    refine Wp.bind (dedupBlock_wp inside quiet table (by omega) ?_)
    rintro b after ⟨image', visited⟩
    rw [List.append_assoc, ← row_succ] at visited
    refine ih visited (by omega) fun b image'' final => ?_
    rw [show index1 + 1 + count = index1 + (count + 1) by omega]
    exact next b image'' final

theorem Inside.wholeFile (inside : Inside free start (before ++ row inum (NDIRECT + indirects start.disk inum)) image
      inum ip ∅ [ip] [ip] state) : Inside free start (before ++ row inum MAXFILE) image inum ip ∅ [ip] [ip] state := by
  by_cases none : (dinodeOf start.disk inum).addr NDIRECT = 0
  · have extend : ∀ count, NDIRECT + count ≤ MAXFILE →
        Inside free start (before ++ row inum (NDIRECT + count)) image inum ip ∅ [ip] [ip] state := by
      intro count bounded
      induction count with
      | zero =>
        have direct : indirects start.disk inum = 0 := if_pos none
        rw [direct] at inside
        exact inside
      | succ count ih =>
        have shorter := ih (by omega)
        rw [← Nat.add_assoc, row_succ, ← List.append_assoc]
        refine shorter.visit ?_ (.hole (shorter.noTable none (by omega)))
        rw [mem_pointers]
        exact ⟨⟨inside.file.1, inside.file.2.1⟩, by simp only; omega⟩
    exact extend (MAXFILE - NDIRECT) (by decide)
  · have whole : indirects start.disk inum = NINDIRECT := if_neg none
    rw [whole] at inside
    exact inside

/-! ## Writing back -/

theorem Journal.later {Untouched Still : Prop} {next : State} {more : List (Nat × Block)}
    (journal : Journal start Untouched state) (touched : ¬ Untouched)
    (trace : next.trace = state.trace ++ more) (disk : next.disk = afterWrites state.disk more) :
    Journal start Still next := by
  obtain ⟨writes, before, contents, untouched | ⟨first, second, rest, found, shape⟩⟩ := journal
  · exact absurd untouched.2 touched
  · refine ⟨writes ++ more, ?_, ?_, .inr ⟨first, second, rest ++ more, found, ?_⟩⟩
    · rw [trace, before, List.append_assoc]
    · rw [disk, contents, afterWrites_append]
    · rw [shape, List.append_assoc]

theorem Journal.same {Untouched Still : Prop} {next : State}
    (journal : Journal start Untouched state) (still : Untouched → Still)
    (trace : next.trace = state.trace) (disk : next.disk = state.disk) : Journal start Still next := by
  obtain ⟨writes, before, contents, shape⟩ := journal
  exact ⟨writes, trace.trans before, disk.trans contents, shape.imp_left (And.imp_right still)⟩

/-- The indirect table of the file is on disk; its inode may still differ. -/
structure TableStored (start : State) (image : Image) (inum : Nat) (ip : Slot) (state : State) :
    Prop where
  core : Core start image (some inum) ∅ ∅ [ip] [ip] state
  number : (state.icache ip).inum = inum
  current : (state.icache ip).toDinode = fileInode start.disk image inum
  cursor : state.nextInum = inum
  fresh : state.directChanged = false → dinodeOf state.data inum = fileInode start.disk image inum
  journal : Journal start (image = sharesOf start.disk ∧ state.directChanged = false) state

theorem writeBackTable_wp (inside : Inside free start done image inum ip ∅ [ip] [ip] state)
    (table : HasTable start.disk inum a)
    (next : ∀ after, TableStored start image inum ip after → Post () after) :
    FsWp free (writeBackTable ip a) state Post Stops := by
  refine Wp.peek ?_
  rw [inside.current, addr_fileInode_table]
  have core := inside.core
  have weaken : (image = sharesOf start.disk ∧ state.directChanged = false ∧
      state.indirectChanged = false) → image = sharesOf start.disk ∧ state.directChanged = false :=
    fun all => ⟨all.1, all.2.1⟩
  refine Wp.ite (fun zero => ?_) (fun nonzero => ?_)
  · have none : tableSectors start.disk inum = ∅ := if_pos zero
    rw [none] at core
    exact Wp.pure (next _ ⟨core, inside.number, inside.current, inside.cursor, inside.fresh,
      inside.journal.same weaken rfl rfl⟩)
  · have one : tableSectors start.disk inum = {(dinodeOf start.disk inum).addr NDIRECT} :=
      if_neg nonzero
    rw [one, Finset.union_empty] at core
    have busy : (state.buf ((dinodeOf start.disk inum).addr NDIRECT)).busy = true :=
      (core.calm.busy _).mpr (Finset.mem_singleton_self _)
    rw [table nonzero]
    refine Wp.see (Wp.bind (Wp.onlyIf (fun changed => ?_) (fun unchanged => ?_)))
    · refine bwrite_wp busy (brelse_wp ?_ (next _ ?_))
      · simpa using busy
      · have calm := core.calm.diskWrite
        have stored := (core.withDisk calm (State.data_diskWrite _ _) rfl rfl rfl).release
          (Finset.notMem_empty ((dinodeOf start.disk inum).addr NDIRECT))
        rw [Finset.erase_singleton] at stored
        refine ⟨stored, inside.number, inside.current, inside.cursor, ?_, ?_⟩
        · intro unchanged
          rw [State.data_release, State.data_diskWrite]
          exact inside.fresh unchanged
        · exact inside.journal.later (fun untouched => by
            rw [untouched.2.2] at changed
            cases changed) rfl rfl
    · have unset : state.indirectChanged = false := by simpa using unchanged
      refine brelse_wp busy (next _ ?_)
      have calm := core.calm.tighten (inside.tight unset)
      have stored := (core.withDisk calm rfl rfl rfl rfl).release (Finset.notMem_empty
        ((dinodeOf start.disk inum).addr NDIRECT))
      rw [Finset.erase_singleton] at stored
      refine ⟨stored, inside.number, inside.current, inside.cursor, ?_, ?_⟩
      · rw [State.data_release]
        exact inside.fresh
      · exact inside.journal.same weaken rfl rfl

theorem Represents.settle {initial blocks : Blocks} (represents : Represents initial image (some inum) blocks)
    (fresh : dinodeOf blocks inum = fileInode initial image inum) : Represents initial image none blocks :=
  { represents with
    inodes := by
      intro other bounded _
      by_cases same : other = inum
      · rw [same]
        exact fresh
      · exact represents.inodes other bounded fun stale => same (Option.some.inj stale).symm }

theorem Inside.fits (inside : Inside free start done image inum ip extra taken locked state)
    (quiet : Quiet start) : (fileInode start.disk image inum).Fits := by
  unfold fileInode
  rw [if_pos inside.file]
  exact (dinodeAt_fits _ _).withDirect fun index => inside.small quiet _

structure Between (free : Freedom) (start : State) (done : List Pointer) (image : Image)
    (state : State) : Prop where
  core : Core start image none ∅ ∅ [] [] state
  steps : Steps free.garbage (IsFile start.disk) start.disk (sharesOf start.disk) done image
  visited : ∀ q ∈ done, q ∈ pointers
  journal : Journal start (image = sharesOf start.disk) state

theorem writeBack_wp (inside : Inside free start done image inum ip ∅ [ip] [ip] state)
    (quiet : Quiet start) (table : HasTable start.disk inum a)
    (next : ∀ after, Core start image none ∅ ∅ [ip] [ip] after → (after.icache ip).inum = inum → (after.icache ip).toDinode = fileInode start.disk image inum → after.nextInum = inum → Journal start (image = sharesOf start.disk) after → Post () after) :
    FsWp free (writeBack ip a) state Post (Tolerated start) := by
  refine Wp.bind (writeBackTable_wp inside table fun stored holds => ?_)
  refine Wp.see (Wp.onlyIf (fun changed => ?_) (fun unchanged => ?_))
  · have before : IBLOCK inum < DATASTART := by
      have bounded := inside.file.2.1
      simp only [IBLOCK, IPB, BSIZE, NINODES, DATASTART] at *
      omega
    have ready := holds.core.logReady quiet before
    obtain ⟨room, slotIdle, slotApart⟩ := ready.begun
    refine loggedBlock_wp (putDinode (stored.data (IBLOCK inum)) (inum % IPB)
      (stored.icache ip).toDinode) (holds.core.calm.steady free) ready ?_ ?_
    · intro After after
      exact iupdate_wp holds.number (holds.core.calm.steady free) ready.idle rfl
        (fun _ => slotIdle) (fun _ => slotApart) (fun full => absurd room full) fun _ => after
    · have written := holds.core.blocks.putInode quiet.consistent inside.file (inside.fits quiet)
      rw [← holds.current] at written
      exact next _ (holds.core.logged quiet before rfl written) holds.number holds.current
        holds.cursor (holds.journal.later (fun untouched => by
          rw [untouched.2] at changed
          cases changed) rfl rfl)
  · have unset : stored.directChanged = false := by simpa using unchanged
    have settled := holds.core.blocks.settle (holds.fresh unset)
    exact next _ { holds.core with blocks := settled }
      holds.number holds.current holds.cursor (holds.journal.same (fun all => all.1) rfl rfl)

theorem Between.enter (between : Between free start done image state) (quiet : Quiet start)
    (file : IsFile start.disk inum)
    (cached : Cached start.icache (fileInode start.disk image) [ip] [ip] icache)
    (number : (icache ip).inum = inum) (current : (icache ip).toDinode = fileInode start.disk image inum) :
    let flags := { state.withCache icache with
      nextInum := inum, directChanged := false, indirectChanged := false }
    (tableSectors start.disk inum = ∅ → Inside free start done image inum ip ∅ [ip] [ip] flags) ∧
    ((dinodeOf start.disk inum).addr NDIRECT ≠ 0 → Inside free start done image inum ip ∅ [ip] [ip]
        (flags.hold ((dinodeOf start.disk inum).addr NDIRECT))) := by
  intro flags
  have before := between.core.calm
  have stale : Core start image (some inum) ∅ ∅ [ip] [ip] flags :=
    { between.core.withCache cached with
      calm := { before with }
      blocks := { between.core.blocks with
        inodes := fun other bounded _ => between.core.blocks.inodes other bounded nofun } }
  have synced : ∀ sector, flags.data sector = flags.disk sector := fun sector =>
    before.synced sector (Finset.notMem_empty _)
  have inode : dinodeOf flags.data inum = fileInode start.disk image inum :=
    between.core.blocks.inodes inum file.2.1 nofun
  have journal : Journal start (image = sharesOf start.disk ∧ flags.directChanged = false ∧
      flags.indirectChanged = false) flags :=
    between.journal.same (fun same => ⟨same, rfl, rfl⟩) rfl rfl
  constructor
  · intro none
    refine ⟨?_, between.steps, file, between.visited, by simp, by simp, number, current, rfl,
      fun _ => inode, fun _ => synced, journal⟩
    rw [none, Finset.union_empty]
    exact stale
  · intro nonzero
    have one : tableSectors start.disk inum = {(dinodeOf start.disk inum).addr NDIRECT} :=
      if_neg nonzero
    have held := stale.hold (tableData quiet.consistent file nonzero)
    rw [insert_empty_eq] at held
    refine ⟨?_, between.steps, file, between.visited, by simp, by simp, number, current, rfl, ?_, ?_, journal⟩
    · rw [one, Finset.union_empty]
      exact held.withDisk (held.calm.loosen (Finset.Subset.refl _)) rfl rfl rfl rfl
    · rw [State.data_hold]
      exact fun _ => inode
    · rw [State.data_hold]
      exact fun _ => synced

theorem dedupFile_wp {Post : Option Nat × Option Nat → State → Prop}
    (between : Between free start before image state) (quiet : Quiet start) (file : IsFile start.disk inum)
    (cached : Cached start.icache (fileInode start.disk image) [ip] [] icache) (number : (icache ip).inum = inum)
    (next : ∀ a b image' after, Between free start (before ++ row inum MAXFILE) image' after → after.nextInum = inum → Post (a, b) after) :
    FsWp free (dedupFile ip NINODES a b) { state.withCache icache with nextInum := inum } Post (Tolerated start) := by
  have inode : dinodeOf state.data inum = fileInode start.disk image inum :=
    between.core.blocks.inodes inum file.2.1 nofun
  have typed := typed_file image file
  refine Wp.set (Wp.bind (ilock_wp cached (by simp) (by simp) number
    (between.core.calm.steady free) (between.core.inodeIdle file.2.1) inode typed ?_))
  intro icache' cached' current number' _
  -- from the first block on the scan of the file is the same with and without a table
  have scan : ∀ (table : Option Nat) (loaded : State), HasTable start.disk inum table →
      Inside free start before image inum ip ∅ [ip] [ip] loaded →
      FsWp free (do
        let b ← dedupBlocks ip NINODES (indirects start.disk inum) table (NDIRECT + indirects start.disk inum) 0 b
        writeBack ip table
        iunlockput ip
        pure (table, b)) loaded Post (Tolerated start) := by
    intro table loaded hasTable inside
    rw [← List.append_nil before] at inside
    refine Wp.bind (dedupBlocks_wp inside quiet hasTable (by omega) ?_)
    intro b image' scanned visited
    rw [Nat.zero_add] at visited
    have whole := visited.wholeFile
    refine Wp.bind (writeBack_wp whole quiet hasTable ?_)
    intro after core afterNumber afterCurrent cursor journal
    refine Wp.bind (iunlockput_wp core.cache (by simp) ?_ ?_)
    · intro last unlinked
      exact core.orphan_wp file afterNumber afterCurrent last unlinked core.calm.logFree
    · intro final cachedFinal _
      exact Wp.pure (next _ _ image' _ ⟨core.withCache cachedFinal, whole.steps, whole.visited,
        journal.same id rfl rfl⟩ cursor)
  obtain ⟨direct, indirect⟩ := between.enter quiet file cached' number' current
  refine Wp.bind (Wp.peek ?_)
  have table : (icache' ip).addr NDIRECT = (dinodeOf start.disk inum).addr NDIRECT := by
    rw [current, addr_fileInode_table]
  simp only [State.withCache, table]
  refine Wp.ite (fun zero => ?_) (fun nonzero => ?_)
  · have count : indirects start.disk inum = 0 := if_pos zero
    have body := scan a _ (fun present => absurd zero present) (direct (if_pos zero))
    rw [count] at body
    exact Wp.pure body
  · have count : indirects start.disk inum = NINDIRECT := if_neg nonzero
    have body := scan (some ((dinodeOf start.disk inum).addr NDIRECT)) _ (fun _ => rfl) (indirect nonzero)
    rw [count] at body
    exact Wp.bind (bread_wp (between.core.calm.steady free)
      (between.core.calm.idle (Finset.notMem_empty _)) (Wp.pure body))

/-! ## All files -/

theorem getNextFrom_wp {Post : Option Slot → State → Prop} {first : Nat}
    (between : Between free start done image state) (positive : 1 ≤ first) (whole : first + count = NINODES)
    (absent : (∀ g, first ≤ g → ¬ IsFile start.disk g) → Post none state)
    (next : ∀ g ip icache, first ≤ g → IsFile start.disk g → (∀ h, first ≤ h → h < g → ¬ IsFile start.disk h) →
      Cached start.icache (fileInode start.disk image) [ip] [] icache → (icache ip).inum = g →
      Post (some ip) { state.withCache icache with nextInum := g }) :
    FsWp free (getNextFrom count first) state Post (Tolerated start) := by
  induction count generalizing first with
  | zero =>
    refine Wp.pure (absent fun g lower file => ?_)
    have upper := file.2.1
    omega
  | succ count ih =>
    have bounded : first < NINODES := by omega
    have typed := between.core.isFile_iff positive bounded nofun
    have idle := between.core.inodeIdle bounded
    refine read_wp (between.core.calm.steady free) idle ?_
    refine Wp.ite (fun isFile => ?_) (fun notFile => ?_)
    · refine Wp.set (Wp.bind (iget_wp between.core.cache (by simp) (by simp) ?_ ?_))
      · intro used
        exact between.core.full (by simp) used _ _
      · intro ip icache cached _ number _ _
        change FsWp free _ ((State.hold { state.withCache icache with nextInum := first }) (IBLOCK first)) _ _
        refine Wp.bind (brelse_hold_wp idle (Wp.pure ?_))
        exact next first ip icache (Nat.le_refl _) (typed.mp isFile) (fun h lower upper => by omega) cached number
    · have skipped : ¬ IsFile start.disk first := fun file => notFile (typed.mpr file)
      have split : ∀ h, first ≤ h → h = first ∨ first + 1 ≤ h := fun h lower => by omega
      refine Wp.bind (brelse_hold_wp idle (ih (by omega) (by omega) ?_ ?_))
      · intro none
        refine absent fun g lower => ?_
        rcases split g lower with rfl | later
        · exact skipped
        · exact none g later
      · intro g ip icache lower file none
        refine next g ip icache (by omega) file fun h from_ below => ?_
        rcases split h from_ with rfl | later
        · exact skipped
        · exact none h later below

theorem scanBelow_skip {Chosen : Nat → Prop} [DecidablePred Chosen] {low high : Nat}
    (ordered : low ≤ high) (none : ∀ g, low ≤ g → g < high → ¬ Chosen g) :
    scanBelow Chosen high = scanBelow Chosen low := by
  induction high with
  | zero => rw [Nat.le_zero.mp ordered]
  | succ high ih =>
    by_cases here : low = high + 1
    · rw [here]
    · rw [scanBelow, if_neg (none high (by omega) (by omega)), List.append_nil]
      exact ih (by omega) fun g lower upper => none g lower (by omega)

theorem dedupFiles_wp (between : Between free start (scanBelow (IsFile start.disk) (state.nextInum + 1)) image state)
    (quiet : Quiet start) (bounded : state.nextInum < NINODES) (enough : NINODES ≤ state.nextInum + count)
    (next : ∀ image after, Between free start (scanBelow (IsFile start.disk) NINODES) image after → Post () after) :
    FsWp free (dedupFiles NINODES count a b) state Post (Tolerated start) := by
  induction count generalizing a b image state with
  | zero => omega
  | succ count ih =>
    have super := between.core.superReady quiet
    refine Wp.bind (Wp.bind (readsb_wp (between.core.calm.steady free) super.idle (Wp.see ?_)))
    rw [super.super]
    change FsWp free (getNextFrom (NINODES - (state.nextInum + 1)) (state.nextInum + 1)) _ _ _
    refine getNextFrom_wp between (by omega) (by omega) ?_ ?_
    · intro none
      refine Wp.pure (next image state ?_)
      rw [scanBelow_skip (show state.nextInum + 1 ≤ NINODES by omega) fun g lower _ => none g lower]
      exact between
    · intro g ip icache lower file none cached number
      refine Wp.bind (dedupFile_wp between quiet file cached number ?_)
      intro a b image' after scanned cursor
      have whole : scanBelow (IsFile start.disk) (state.nextInum + 1) ++ row g MAXFILE =
          scanBelow (IsFile start.disk) (after.nextInum + 1) := by
        rw [cursor]
        change _ = scanBelow _ g ++ if IsFile start.disk g then row g MAXFILE else []
        rw [if_pos file, scanBelow_skip lower none]
      rw [whole] at scanned
      exact ih scanned (by rw [cursor]; exact file.2.1) (by omega)

theorem dedup_wp (quiet : Quiet start) : FsWp free dedup start (fun _ after => ∃ image,
      Between free start (scanBelow (IsFile start.disk) NINODES) image after) (Tolerated start) := by
  have core : Core start (sharesOf start.disk) none ∅ ∅ [] [] start := by
    refine ⟨quiet.calm, by simp, ?_, ?_, rfl, rfl⟩
    · have synced : start.data = start.disk := funext fun sector =>
        quiet.calm.synced sector (Finset.notMem_empty _)
      rw [synced]
      exact represents_initial start.disk
    · rw [funext (fileInode_sharesOf start.disk)]
      exact quiet.cache
  have super := core.superReady quiet
  refine Wp.bind (readsb_wp (quiet.calm.steady free) super.idle (Wp.set ?_))
  rw [super.super]
  have first : scanBelow (IsFile start.disk) 1 = [] :=
    scanBelow_skip (Nat.zero_le 1) fun g _ below file => by
      have positive := file.1
      omega
  have between : Between free start (scanBelow (IsFile start.disk) 1) (sharesOf start.disk)
      { start with nextInum := 0 } := by
    rw [first]
    refine ⟨{ core with calm := { quiet.calm with } }, .nil, by simp, [], ?_, rfl, .inl ⟨rfl, rfl⟩⟩
    exact (List.append_nil _).symm
  exact dedupFiles_wp between quiet (show 0 < NINODES by decide)
    (show NINODES ≤ 0 + NINODES by decide) fun image after ended => ⟨image, ended⟩

end Simulation

end Xv6Dedup
