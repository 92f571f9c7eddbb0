import Xv6Dedup.Dedup.Core

/-!
# Redirecting a block

`deletedups` and the comparison before it, as one visit of the abstract pass.
-/

set_option autoImplicit false

namespace Xv6Dedup

open Function Program Sharing

/-! ## The writes of a redirection -/

/-- Give up one pointer to a sector: lower its count, or free it in a
transaction of its own. -/
def dropWrites (blocks : Blocks) (sector : Nat) : List (Nat × Block) :=
  if refOf blocks sector = 0 then
    loggedWrites LOGSTART (blocks LOGSTART) BITMAP ((blocks BITMAP).clearBit sector)
  else [refWrite blocks sector (refOf blocks sector - 1)]

def raiseWrite (blocks : Blocks) (sector : Nat) : Nat × Block :=
  refWrite blocks sector (refOf blocks sector + 1)

def redirectWrites (blocks : Blocks) (target old : Nat) : List (Nat × Block) :=
  raiseWrite blocks target :: dropWrites (afterWrites blocks [raiseWrite blocks target]) old

variable {blocks : Blocks} {old : Nat}

section

variable {others : Blocks} (same : ∀ s, ¬ IsData s → others s = blocks s)
include same

theorem refSector_congr (sector : Nat) : others (refSector sector) = blocks (refSector sector) := by
  apply same
  intro data
  have lower := data.1
  simp only [DATASTART, refSector] at lower
  split at lower <;> omega

theorem raiseWrite_congr (sector : Nat) : raiseWrite others sector = raiseWrite blocks sector := by
  rw [raiseWrite, raiseWrite, refWrite, refWrite, refOf, refOf, refSector_congr same]

theorem dropWrites_congr (sector : Nat) : dropWrites others sector = dropWrites blocks sector := by
  have bitmap : others BITMAP = blocks BITMAP := same _ fun data => absurd data.1 (by decide)
  have header : others LOGSTART = blocks LOGSTART := same _ fun data => absurd data.2 (by decide)
  rw [dropWrites, dropWrites, refWrite, refWrite, refOf, refOf, refSector_congr same, bitmap, header]

theorem redirectWrites_congr (target old : Nat) :
    redirectWrites others target old = redirectWrites blocks target old := by
  rw [redirectWrites, raiseWrite_congr same]
  congr 1
  apply dropWrites_congr
  intro sector outside
  rw [afterWrites_cons, afterWrites_cons, afterWrites_nil, afterWrites_nil]
  by_cases written : sector = (raiseWrite blocks target).1
  · rw [written, update_self, update_self]
  · rw [update_of_ne written, update_of_ne written]
    exact same sector outside

end

variable {target : Nat}

theorem redirectWrites_sector {write : Nat × Block} (member : write ∈ redirectWrites blocks target old) :
    BITMAP ≤ write.1 := by
  have count : ∀ others sector value, BITMAP ≤ (refWrite others sector value).1 := by
    intro others sector value
    simp only [refWrite, refSector, BITMAP]
    split <;> omega
  rw [redirectWrites, List.mem_cons] at member
  rcases member with rfl | dropped
  · exact count _ _ _
  · unfold dropWrites at dropped
    split at dropped
    · simp only [loggedWrites, List.mem_cons, List.not_mem_nil, or_false] at dropped
      rcases dropped with rfl | rfl | rfl | rfl <;> simp [LOGSTART, BITMAP]
    · rw [List.mem_singleton.mp dropped]
      exact count _ _ _

section

variable {start state : State} {image : Image} {stale : Option Nat} {held loose : Finset Nat}
  {taken locked : List Slot} (core : Core start image stale held loose taken locked state)
include core

theorem Core.redirectCounts (quiet : Quiet start) (targetData : IsData target) (oldData : IsData old) :
    Core start { image with toCounters := (image.toCounters.raise target).drop old } stale held
      loose taken locked (state.written (redirectWrites state.data target old)) := by
  have bounded : ∀ s, IsData s → s < 2 * BSIZE ∧ s < BPB := by
    rintro s ⟨_, upper⟩
    simp only [LOGSTART, BSIZE, BPB] at *
    omega
  have raised := core.setRef quiet (refOf state.data target + 1) targetData
  rw [core.blocks.ref target (bounded _ targetData).1] at raised
  have count := raised.blocks.ref old (bounded _ oldData).1
  have first : raiseWrite state.data target = refWrite state.data target (image.ref target + 1) := by
    rw [raiseWrite, core.blocks.ref target (bounded _ targetData).1]
  rw [redirectWrites, first, ← List.singleton_append, ← State.written_written, ← State.data_written, dropWrites, count]
  have logStart : (state.written [refWrite state.data target (image.ref target + 1)]).log.start = LOGSTART := by
    rw [raised.log, quiet.logStart]
  simp only [Counters.drop, Counters.raise]
  by_cases last : update image.ref target (image.ref target + 1) old = 0
  · simp only [last, if_true]
    rw [← logStart]
    exact raised.logged quiet (by decide) rfl (raised.blocks.clearUsed quiet.consistent (bounded _ oldData).2)
  · simp only [last, if_false]
    exact raised.setRef quiet _ oldData

theorem redirectCounts_wp {free : Freedom} {Post : Unit → State → Prop} {Stops : Stop → State → Prop}
    (quiet : Quiet start) (targetData : IsData target) (oldData : IsData old)
    (unused : (image.toCounters.raise target).ref old = 0 → image.used old =
      false → ∀ next more, next.trace = state.trace ++ more → Stops (.panic "freeing free block")
      next) (next : Post () (state.written (redirectWrites state.data target old))) : FsWp free (do
      updateBlkRef target 1
      let ref ← getBlkRef old
      if 0 < ref then updateBlkRef old (-1)
      else do
        begin_trans
        bfree old
        commit_trans) state Post Stops := by
  have small : old < BPB := by
    have upper := oldData.2
    simp only [LOGSTART, BPB, BSIZE] at *
    omega
  have wide : ∀ s, IsData s → s < 2 * BSIZE := by
    rintro s ⟨_, upper⟩
    simp only [LOGSTART, BSIZE] at *
    omega
  refine Wp.bind (updateBlkRef_wp (core.calm.steady free) (core.refReady quiet targetData) ?_)
  have raised := core.setRef quiet (refOf state.data target + 1) targetData
  refine Wp.bind (getBlkRef_wp (raised.calm.steady free) (raised.refReady quiet oldData) ?_)
  have finished : ∀ after : State, after = (state.written [raiseWrite state.data target]).written
      (dropWrites (afterWrites state.data [raiseWrite state.data target]) old) →
      Post () after := by
    rintro after rfl
    rw [State.written_written]
    exact next
  have count := raised.blocks.ref old (wide _ oldData)
  have counted : (image.toCounters.raise target).ref old =
      refOf (state.written [raiseWrite state.data target]).data old := by
    rw [Counters.raise, ← core.blocks.ref target (wide _ targetData)]
    exact count.symm
  refine Wp.ite (fun several => ?_) (fun last => ?_)
  · have nonzero : refOf (afterWrites state.data [raiseWrite state.data target]) old ≠ 0 := by
      rw [← State.data_written]
      intro zero
      change 0 < (refOf (state.written [raiseWrite state.data target]).data old).toNat at several
      rw [zero] at several
      exact absurd several (by decide)
    refine updateBlkRef_wp (raised.calm.steady free) (raised.refReady quiet oldData) (finished _ ?_)
    rw [dropWrites, if_neg nonzero, ← State.data_written]
    rw [← State.data_written] at nonzero
    change (state.written _).written [refWrite _ _ (if refOf (state.written
      [raiseWrite state.data target]).data old = 0 then _ else _)] = _
    rw [if_neg nonzero]
    rfl
  · have zero : refOf (state.written [raiseWrite state.data target]).data old = 0 := by
      change ¬ 0 < (refOf (state.written [raiseWrite state.data target]).data old).toNat at last
      exact BitVec.eq_of_toNat_eq (by simpa using last)
    have used : usedOf (state.written [raiseWrite state.data target]).data old =
        image.used old := raised.blocks.used old small
    have logStart : (state.written [raiseWrite state.data target]).log.start = LOGSTART := by
      change state.log.start = LOGSTART
      rw [core.log, quiet.logStart]
    refine freeBlock_wp (raised.calm.steady free) (raised.logReady quiet (by decide))
      (raised.superReady quiet) small (fun clear => ?_) (fun _ => finished _ ?_)
    · exact unused (counted.trans zero) (used.symm.trans clear) _ [raiseWrite state.data target] rfl
    · rw [dropWrites, ← State.data_written, if_pos zero, ← logStart]
      rfl

end

/-! ## The state inside the scan of a file -/

/-- The indirect table of an inode, if it has one. -/
def tableSectors (blocks : Blocks) (inum : Nat) : Finset Nat :=
  if (dinodeOf blocks inum).addr NDIRECT = 0 then ∅ else {(dinodeOf blocks inum).addr NDIRECT}

theorem mem_tableSectors {inum sector : Nat} : sector ∈ tableSectors blocks inum ↔
      (dinodeOf blocks inum).addr NDIRECT = sector ∧ sector ≠ 0 := by
  unfold tableSectors
  split
  · rename_i zero
    simp only [Finset.notMem_empty, false_iff, not_and, not_not]
    rintro rfl
    exact zero
  · rename_i nonzero
    rw [Finset.mem_singleton]
    exact ⟨fun same => ⟨same.symm, same ▸ nonzero⟩, fun both => both.1.symm⟩

/-- A pair of equal blocks on different sectors that `dedup` compares. -/
structure Redirectable (blocks : Blocks) (p c : Pointer) : Prop where
  file : IsFile blocks p.1
  candidate : Candidate (IsFile blocks) p c
  found : Match blocks (sharesOf blocks) p c
  unskipped : ¬ Skips (sharesOf blocks) p c

/-- The writes begin with those of a redirection in the initial image. -/
def Redirected (start : State) (writes : List (Nat × Block)) : Prop :=
  ∃ p c rest, Redirectable start.disk p c ∧ writes = redirectWrites start.disk ((sharesOf start.disk).ptr c)
      ((sharesOf start.disk).ptr p) ++ rest

/-- The writes so far: none while `Untouched`, else those of a first redirection
and more. -/
def Journal (start : State) (Untouched : Prop) (state : State) : Prop :=
  ∃ writes, state.trace = start.trace ++ writes ∧ state.disk = afterWrites start.disk writes ∧
    ((writes = [] ∧ Untouched) ∨ Redirected start writes)

/-- What `dedup` needs in order to finish: two free inode cache entries, and no
file without links that nobody has open. -/
structure Runnable (start : State) : Prop where
  room : ∃ first second : Slot, first ≠ second ∧ (start.icache first).ref = 0 ∧ (start.icache second).ref = 0
  linked : ∀ inum, IsFile start.disk inum → (dinodeOf start.disk inum).nlink ≠ 0 ∨
    ∃ slot, 0 < (start.icache slot).ref ∧ (start.icache slot).inum = inum

/-- Where `dedup` may stop: when it cannot run, or after redirections when
contents have too many sharers. -/
def Tolerated (start : State) (_ : Stop) (state : State) : Prop :=
  ¬ Runnable start ∨ (¬ FewSharers start.disk (sharesOf start.disk).ptr ∧
    ∃ writes, state.trace = start.trace ++ writes ∧ Redirected start writes)

/-- Inside the scan of file `inum`, cached in `ip`; `extra` are the buffers held
besides its indirect table. -/
structure Inside (free : Freedom) (start : State) (done : List Pointer) (image : Image) (inum : Nat)
    (ip : Slot) (extra : Finset Nat) (taken locked : List Slot) (state : State) : Prop where
  core : Core start image (some inum) (tableSectors start.disk inum ∪ extra)
    (tableSectors start.disk inum) taken locked state
  steps : Steps free.garbage (IsFile start.disk) start.disk (sharesOf start.disk) done image
  file : IsFile start.disk inum
  visited : ∀ q ∈ done, q ∈ pointers
  takes : ip ∈ taken
  locks : ip ∈ locked
  number : (state.icache ip).inum = inum
  current : (state.icache ip).toDinode = fileInode start.disk image inum
  cursor : state.nextInum = inum
  fresh : state.directChanged = false → dinodeOf state.data inum = fileInode start.disk image inum
  tight : state.indirectChanged = false → ∀ sector, state.data sector = state.disk sector
  journal : Journal start (image = sharesOf start.disk ∧ state.directChanged = false ∧
    state.indirectChanged = false) state

section Inside

variable {free : Freedom} {start state : State} {done : List Pointer} {image : Image} {inum : Nat}
  {ip : Slot} {extra : Finset Nat} {taken locked : List Slot}

namespace Inside

section

variable (inside : Inside free start done image inum ip extra taken locked state)
include inside

theorem data (quiet : Quiet start) {q : Pointer} (present : image.ptr q ≠ 0) :
    IsData (image.ptr q) ∧ ¬ IsTable start.disk (image.ptr q) := by
  obtain ⟨r, origin⟩ := inside.steps.origin q
  rw [origin] at present ⊢
  exact ⟨quiet.consistent.data r present, fun table =>
    quiet.consistent.tablesApart _ table r rfl⟩

theorem small (quiet : Quiet start) (q : Pointer) : image.ptr q < 4294967296 := by
  by_cases zero : image.ptr q = 0
  · omega
  · have upper := (inside.data quiet zero).1.2
    simp only [LOGSTART] at upper
    omega

theorem contents (quiet : Quiet start) {q : Pointer} (present : image.ptr q ≠ 0) :
    state.data (image.ptr q) = start.disk (image.ptr q) := by
  obtain ⟨data, plain⟩ := inside.data quiet present
  refine inside.core.blocks.contents _ data fun table => plain ?_
  obtain ⟨g, file, same⟩ := table
  exact ⟨g, file.allocated, same, present⟩

theorem hold {sector : Nat} (data : IsData sector) :
    Inside free start done image inum ip (insert sector extra) taken locked (state.hold sector) :=
  { inside with
    core := by
      rw [Finset.union_insert]
      exact inside.core.hold data
    fresh := by
      rw [State.data_hold]
      exact inside.fresh
    tight := by
      rw [State.data_hold]
      exact inside.tight }

end

theorem release {sector : Nat} (inside : Inside free start done image inum ip (insert sector extra) taken locked state)
    (absent : sector ∉ extra) (plain : sector ∉ tableSectors start.disk inum) :
    Inside free start done image inum ip extra taken locked (state.release sector) :=
  { inside with
    core := by
      have released := inside.core.release plain
      rw [Finset.union_insert, Finset.erase_insert] at released
      · exact released
      · rw [Finset.mem_union, not_or]
        exact ⟨plain, absent⟩
    fresh := by
      rw [State.data_release]
      exact inside.fresh
    tight := by
      rw [State.data_release]
      exact inside.tight }

theorem tolerated (inside : Inside free start done image inum ip extra taken locked state)
    (quiet : Quiet start) {p : Pointer} (member : p ∈ pointers) (present : image.ptr p ≠ 0)
    (clear : image.used (image.ptr p) = false) {next : State} {more : List (Nat × Block)}
    (trace : next.trace = state.trace ++ more) (reason : Stop) : Tolerated start reason next := by
  have pointed : 0 < users pointers image.ptr (image.ptr p) := users_pos_iff.mpr ⟨p, member, rfl⟩
  have data := (inside.data quiet present).1
  have unaccounted : ¬ image.Accounted pointers IsData (IsTable start.disk) := by
    intro accounted
    have set := (accounted.used _ data).mpr (.inl pointed)
    rw [clear] at set
    cases set
  obtain ⟨writes, before, _, untouched | redirected⟩ := inside.journal
  · rw [untouched.2.1] at unaccounted
    exact absurd quiet.consistent.accounted unaccounted
  · refine .inr ⟨fun few => unaccounted ?_, writes ++ more, ?_, ?_⟩
    · refine inside.steps.accounted inside.visited (fun g file => ⟨file.1, file.2.1⟩) few ?_ quiet.consistent.accounted
      intro q present
      exact ⟨quiet.consistent.data q present, fun table =>
        quiet.consistent.tablesApart _ table q rfl⟩
    · rw [trace, before, List.append_assoc]
    · obtain ⟨first, second, rest, found, shape⟩ := redirected
      exact ⟨first, second, rest ++ more, found, by rw [shape, List.append_assoc]⟩

end Inside

/-- How the code names a pointer of a file: an index into `addrs`, or into the
held indirect table. -/
inductive Names (blocks : Blocks) (inum : Nat) : Option Nat → Nat → Pointer → Prop where
  | direct {index : Nat} (bounded : index < NDIRECT) : Names blocks inum none index (inum, index)
  | entry {index : Nat} (present : (dinodeOf blocks inum).addr NDIRECT ≠ 0) (bounded : index < NINDIRECT) :
      Names blocks inum (some ((dinodeOf blocks inum).addr NDIRECT)) index (inum, NDIRECT + index)

variable {Stops : Stop → State → Prop}

variable {index : Nat} {Post : Nat → State → Prop}

theorem addr_fileInode (file : IsFile blocks inum) (bounded : index < NDIRECT) :
    (fileInode blocks image inum).addr index = image.ptr (inum, index) := by
  rw [fileInode, if_pos file, Dinode.addr_withDirect bounded]

theorem addr_fileInode_table (blocks : Blocks) (image : Image) (inum : Nat) :
    (fileInode blocks image inum).addr NDIRECT = (dinodeOf blocks inum).addr NDIRECT := by
  unfold fileInode
  split
  · exact Dinode.addr_withDirect_table
  · rfl

theorem addrsAt_wp (file : IsFile start.disk inum)
    (current : (state.icache ip).toDinode = fileInode start.disk image inum)
    (bounded : index < NDIRECT) (next : Post (image.ptr (inum, index)) state) :
    FsWp free (addrsAt ip index) state Post Stops := by
  refine Wp.peek ?_
  rw [if_pos (Nat.lt_succ_of_lt bounded)]
  refine Wp.pure ?_
  rw [current, addr_fileInode file bounded]
  exact next

theorem tableAt_wp {stale : Option Nat} {held loose : Finset Nat}
    (core : Core start image stale held loose taken locked state) (file : IsFile start.disk inum)
    (present : (dinodeOf start.disk inum).addr NDIRECT ≠ 0)
    (busy : (dinodeOf start.disk inum).addr NDIRECT ∈ held) (bounded : index < NINDIRECT)
    (next : Post (image.ptr (inum, NDIRECT + index)) state) :
    FsWp free (tableAt ((dinodeOf start.disk inum).addr NDIRECT) index) state Post Stops := by
  refine Wp.bind (bdata_wp ((core.calm.busy _).mpr busy) (Wp.pure ?_))
  have entry := core.blocks.tables inum file present index bounded
  simp only [State.data] at entry
  rw [entry]
  exact next

theorem pointerAt_wp {stale : Option Nat} {held loose : Finset Nat}
    (core : Core start image stale held loose taken locked state) (file : IsFile start.disk inum)
    (current : (state.icache ip).toDinode = fileInode start.disk image inum) {table : Option Nat}
    {p : Pointer} (named : Names start.disk inum table index p)
    (busy : ∀ sector, table = some sector → sector ∈ held) (next : Post (image.ptr p) state) :
    FsWp free (pointerAt ip table index) state Post Stops := by
  cases named with
  | direct bounded => exact addrsAt_wp file current bounded next
  | entry present bounded => exact tableAt_wp core file present (busy _ rfl) bounded next

private theorem Inside.redirected {p c : Pointer} {stored : State}
    (inside : Inside free start done image inum ip extra taken locked state) (quiet : Quiet start)
    (member : p ∈ pointers) (own : p.1 = inum) (candidate : Candidate (IsFile start.disk) p c)
    (found : Match start.disk image p c) (unskipped : ¬ Skips image p c)
    (first : ∀ d, Candidate (IsFile start.disk) p d → Earlier p d c → Missed free.garbage start.disk image p d)
    (core : Core start { image with ptr := update image.ptr p (image.ptr c) } (some inum)
      (tableSectors start.disk inum ∪ extra) (tableSectors start.disk inum) taken locked stored)
    (number : (stored.icache ip).inum = inum)
    (current : (stored.icache ip).toDinode = fileInode start.disk (image.redirect p (image.ptr c)) inum)
    (cursor : stored.nextInum = inum)
    (fresh : stored.directChanged = false →
      dinodeOf stored.data inum = fileInode start.disk (image.redirect p (image.ptr c)) inum)
    (tight : stored.indirectChanged = false → ∀ sector, stored.data sector = stored.disk sector)
    (outside : ∀ sector, ¬ IsData sector → stored.data sector = state.data sector)
    (disk : stored.disk = state.disk) (trace : stored.trace = state.trace) :
    Inside free start (done ++ [p]) (image.redirect p (image.ptr c)) inum ip extra taken locked
      (stored.written (redirectWrites stored.data (image.ptr c) (image.ptr p))) where
  core := core.redirectCounts quiet (inside.data quiet found.present).1 (inside.data quiet found.filled).1
  steps := inside.steps.snoc (.shared c candidate found unskipped first)
  file := inside.file
  visited q visited := by
    rcases List.mem_append.mp visited with before | last
    · exact inside.visited q before
    · rw [List.mem_singleton.mp last]
      exact member
  takes := inside.takes
  locks := inside.locks
  number := number
  current := current
  cursor := cursor
  fresh unchanged := by
    rw [← fresh unchanged]
    apply dinodeOf_congr
    rw [State.data_written, afterWrites_of_not_mem fun member => ?_]
    obtain ⟨write, included, same⟩ := List.mem_map.mp member
    have after := redirectWrites_sector included
    have bounded := inside.file.2.1
    simp only [IBLOCK, IPB, BSIZE, NINODES, BITMAP] at *
    omega
  tight unchanged := by
    intro sector
    have equal : stored.data = stored.disk := funext (tight unchanged)
    rw [State.data_written, equal]
    rfl
  journal := by
    obtain ⟨writes, before, contents, untouched | redirected⟩ := inside.journal
    · obtain ⟨rfl, same, _, unchanged⟩ := untouched
      refine ⟨redirectWrites stored.data (image.ptr c) (image.ptr p), ?_, ?_, .inr ?_⟩
      · simp only [State.written]
        rw [trace, before, List.append_nil]
      · simp only [State.written]
        rw [disk, contents, afterWrites_nil]
      · subst same
        refine ⟨p, c, [], ⟨own ▸ inside.file, candidate, found, unskipped⟩, ?_⟩
        rw [List.append_nil]
        apply redirectWrites_congr
        intro sector notData
        rw [outside sector notData, inside.tight unchanged, contents, afterWrites_nil]
    · refine ⟨writes ++ redirectWrites stored.data (image.ptr c) (image.ptr p), ?_, ?_, .inr ?_⟩
      · simp only [State.written]
        rw [trace, before, List.append_assoc]
      · simp only [State.written]
        rw [disk, contents, afterWrites_append]
      · obtain ⟨first, second, rest, original, shape⟩ := redirected
        exact ⟨first, second, rest ++ redirectWrites stored.data (image.ptr c) (image.ptr p),
          original, by rw [shape, List.append_assoc]⟩

theorem deletedups_wp {Post : Unit → State → Prop} {p c : Pointer} {a b : Option Nat}
    {index1 index2 g : Nat} {ip2 : Slot}
    (inside : Inside free start done image inum ip extra taken locked state) (quiet : Quiet start)
    (member : p ∈ pointers) (candidate : Candidate (IsFile start.disk) p c)
    (found : Match start.disk image p c) (unskipped : ¬ Skips image p c)
    (first : ∀ d, Candidate (IsFile start.disk) p d → Earlier p d c →
      Missed free.garbage start.disk image p d) (named : Names start.disk inum a index1 p)
    (file : IsFile start.disk g)
    (current : (state.icache ip2).toDinode = fileInode start.disk image g)
    (target : Names start.disk g b index2 c)
    (busy : ∀ sector, b = some sector → sector ∈ tableSectors start.disk inum ∪ extra)
    (next : ∀ after, Inside free start (done ++ [p]) (image.redirect p (image.ptr c)) inum ip extra
      taken locked after → (∀ slot, slot ≠ ip → after.icache slot = state.icache slot) →
      Post () after) :
    FsWp free (deletedups ip ip2 (image.ptr p) (image.ptr c) index1 index2 a b) state Post (Tolerated start) := by
  refine Wp.bind (pointerAt_wp inside.core file current target busy ?_)
  have targetData := (inside.data quiet found.present).1
  have oldData := (inside.data quiet found.filled).1
  -- both kinds of pointers are followed by the same updates of the counters
  have counts : ∀ stored : State, Core start { image with ptr := update image.ptr p (image.ptr c) } (some inum)
        (tableSectors start.disk inum ∪ extra) (tableSectors start.disk inum) taken locked stored →
      stored.trace = state.trace →
      Post () (stored.written (redirectWrites stored.data (image.ptr c) (image.ptr p))) →
      FsWp free (do
        updateBlkRef (image.ptr c) 1
        let ref ← getBlkRef (image.ptr p)
        if 0 < ref then updateBlkRef (image.ptr p) (-1)
        else do
          begin_trans
          bfree (image.ptr p)
          commit_trans) stored Post (Tolerated start) := by
    intro stored core trace post
    refine redirectCounts_wp core quiet targetData oldData ?_ post
    intro _ clear after more grown
    rw [trace] at grown
    exact inside.tolerated quiet member found.filled clear grown _
  cases named with
  | direct bounded =>
    have core := inside.core.setDirect (image.ptr c) inside.takes inside.locks
      inside.number inside.current inside.file bounded
    simp only [setPointer]
    refine Wp.set (counts _ core rfl (next _ (inside.redirected quiet member rfl
      candidate found unskipped first core ?_ ?_ inside.cursor ?_ inside.tight (fun _ _ => rfl) rfl rfl) ?_))
    · simp only [State.setInode, update_self]
      exact inside.number
    · simp only [State.setInode, update_self]
      change (state.icache ip).toDinode.setAddr index1 (image.ptr c) = _
      rw [inside.current]
      exact setAddr_fileInode _ inside.file bounded
    · intro unchanged
      cases unchanged
    · intro slot different
      simp only [State.written, State.setInode, update_of_ne different]
  | entry present bounded =>
    have loose : (dinodeOf start.disk inum).addr NDIRECT ∈ tableSectors start.disk inum :=
      mem_tableSectors.mpr ⟨rfl, present⟩
    have held := (inside.core.calm.busy _).mpr (Finset.mem_union_left extra loose)
    have data := tableData quiet.consistent inside.file present
    have core := inside.core.setEntry quiet inside.file present loose bounded (inside.small quiet c)
    have outside : ∀ sector, ¬ IsData sector → (state.fill ((dinodeOf start.disk inum).addr NDIRECT)
          (putEntry (state.data ((dinodeOf start.disk inum).addr NDIRECT)) index1
            (image.ptr c))).data sector = state.data sector := by
      intro sector plain
      rw [State.data_fill, update_of_ne (by rintro rfl; exact plain data)]
    refine Wp.bind (Wp.bind (bdata_wp held (Wp.bind (bset_wp held (Wp.change
      (counts _ core rfl (next _ (inside.redirected quiet member rfl candidate found unskipped first core
        inside.number ?_
        inside.cursor ?_ ?_ outside rfl rfl) fun _ _ => rfl)))))))
    · exact inside.current.trans (fileInode_setEntry _ _ _ _ _ _).symm
    · intro unchanged
      refine Eq.trans ?_ ((inside.fresh unchanged).trans (fileInode_setEntry _ _ _ _ _ _).symm)
      apply dinodeOf_congr
      apply outside
      intro inodeData
      have lower := inodeData.1
      have small := inside.file.2.1
      simp only [IBLOCK, IPB, BSIZE, NINODES, DATASTART] at *
      omega
    · intro unchanged
      cases unchanged

end Inside

end Xv6Dedup
