import Xv6Dedup.Dedup.Redirect

/-!
# The search for a block to share

The comparison of a block with one candidate, the scan of the own file and of
one other file. A comparison that does not redirect leaves the state alone.
-/

set_option autoImplicit false

namespace Xv6Dedup

open Program Sharing

theorem firstFrom_isNone_iff {test : Nat → Bool} {count start : Nat} : (firstFrom test count start).isNone = true ↔
      ∀ index, start ≤ index → index < start + count → test index = false := by
  induction count generalizing start with
  | zero =>
    simp only [firstFrom, Option.isNone_none, true_iff]
    omega
  | succ count ih =>
    rw [firstFrom]
    cases answer : test start with
    | true =>
      simp only [if_true, Option.isNone_some, Bool.false_eq_true, false_iff]
      intro all
      rw [all start (Nat.le_refl _) (by omega)] at answer
      cases answer
    | false =>
      simp only [Bool.false_eq_true, if_false, ih]
      constructor
      · intro rest index lower upper
        by_cases first : index = start
        · rw [first]
          exact answer
        · exact rest index (by omega) (by omega)
      · intro all index lower upper
        exact all index (by omega) (by omega)

variable {Stops : Stop → State → Prop}

theorem blkcmp_wp {free : Freedom} {state : State} {b1 b2 : Nat} {Post : Bool → State → Prop}
    (held1 : (state.buf b1).busy = true) (held2 : (state.buf b2).busy = true)
    (next : ∀ same : Bool, (same = true ↔ state.data b1 = state.data b2) → Post same state) :
    FsWp free (blkcmp b1 b2) state Post Stops := by
  refine Wp.bind (bdata_wp held1 (Wp.bind (bdata_wp held2 (Wp.pure (next _ ?_)))))
  rw [firstFrom_isNone_iff]
  constructor
  · intro all
    apply Bytes.ext_get
    intro index bounded
    have equal : (state.buf b1).data.get index = (state.buf b2).data.get index := by
      simpa using all index (Nat.zero_le _) (by omega)
    exact equal
  · intro same index _ _
    have equal : (state.buf b1).data = (state.buf b2).data := same
    simp [equal]

/-! ## Tables -/

/-- The number of entries of the indirect table of an inode. -/
def indirects (blocks : Blocks) (inum : Nat) : Nat :=
  if (dinodeOf blocks inum).addr NDIRECT = 0 then 0 else NINDIRECT

/-- The table pointer is set for the inode, if the inode has a table. -/
def HasTable (blocks : Blocks) (inum : Nat) (table : Option Nat) : Prop :=
  (dinodeOf blocks inum).addr NDIRECT ≠ 0 → table = some ((dinodeOf blocks inum).addr NDIRECT)

theorem indirects_pos {blocks : Blocks} {inum index : Nat}
    (bounded : index < NDIRECT + indirects blocks inum) (past : ¬ index < NDIRECT) :
    (dinodeOf blocks inum).addr NDIRECT ≠ 0 ∧ index - NDIRECT < NINDIRECT := by
  unfold indirects at bounded
  split at bounded
  · omega
  · rename_i present
    exact ⟨present, by omega⟩

theorem Names.of_index {blocks : Blocks} {inum index : Nat}
    (present : (dinodeOf blocks inum).addr NDIRECT ≠ 0) (bounded : index - NDIRECT < NINDIRECT)
    (past : ¬ index < NDIRECT) :
    Names blocks inum (some ((dinodeOf blocks inum).addr NDIRECT)) (index - NDIRECT) (inum, index) := by
  have named := Names.entry present bounded
  rwa [Nat.add_sub_cancel' (Nat.not_lt.mp past)] at named

section Scan

variable {free : Freedom} {start state : State} {done : List Pointer} {image : Image} {inum : Nat}
  {ip : Slot} {extra : Finset Nat} {taken locked : List Slot}

namespace Inside

variable (inside : Inside free start done image inum ip extra taken locked state)
include inside

theorem noTable {g index : Nat} (none : (dinodeOf start.disk g).addr NDIRECT = 0) (past : ¬ index < NDIRECT) :
    image.ptr (g, index) = 0 := by
  rw [(inside.steps.contents (g, index)).1]
  simp only [sharesOf, pointersOf, blockPointer, past, if_false, none, ne_eq, not_true_eq_false, and_false, ite_self]

theorem plain (quiet : Quiet start) {q : Pointer} (present : image.ptr q ≠ 0) {g : Nat}
    (file : IsFile start.disk g) : image.ptr q ∉ tableSectors start.disk g := by
  intro member
  obtain ⟨table, nonzero⟩ := mem_tableSectors.mp member
  exact (inside.data quiet present).2 ⟨g, file.allocated, table, nonzero⟩

theorem visit {p : Pointer} (member : p ∈ pointers)
    (step : BlockStep free.garbage (IsFile start.disk) start.disk p image image) :
    Inside free start (done ++ [p]) image inum ip extra taken locked state :=
  { inside with
    steps := inside.steps.snoc step
    visited := by
      intro q visited
      rcases List.mem_append.mp visited with before | last
      · exact inside.visited q before
      · rw [List.mem_singleton.mp last]
        exact member }

end Inside

/-- The block of `p` was shared: the pass has visited `p`, its buffer is
released, and the other cached inodes are as before. -/
def SharedFrom (free : Freedom) (start : State) (done : List Pointer) (inum : Nat) (ip : Slot)
    (extra : Finset Nat) (taken locked : List Slot) (p : Pointer) (before after : State) : Prop :=
  ∃ image, Inside free start (done ++ [p]) image inum ip extra taken locked after ∧
    ∀ slot, slot ≠ ip → after.icache slot = before.icache slot

variable {Post : Bool → State → Prop} {p : Pointer} {index1 index2 g index : Nat}

theorem compare_wp {c : Pointer} {a b : Option Nat} {ip2 : Slot}
    (inside : Inside free start done image inum ip (insert (image.ptr p) extra) taken locked state)
    (quiet : Quiet start) (tables : ∀ sector ∈ extra, IsTable start.disk sector)
    (member : p ∈ pointers) (filled : image.ptr p ≠ 0) (present : image.ptr c ≠ 0)
    (different : image.ptr c ≠ image.ptr p) (candidate : Candidate (IsFile start.disk) p c)
    (unskipped : ¬ Skips image p c)
    (first : ∀ d, Candidate (IsFile start.disk) p d → Earlier p d c → Missed free.garbage start.disk image p d)
    (named : Names start.disk inum a index1 p) (file : IsFile start.disk g)
    (current : (state.icache ip2).toDinode = fileInode start.disk image g)
    (target : Names start.disk g b index2 c)
    (busy : ∀ sector, b = some sector → sector ∈ tableSectors start.disk inum ∪ extra)
    (shared : ∀ after, SharedFrom free start done inum ip extra taken locked p state after → Post true after)
    (kept : Missed free.garbage start.disk image p c → Post false state) :
    FsWp free (do
      let b2 ← bread (image.ptr c)
      shareIfEqual ip ip2 (image.ptr p) b2 index1 index2 a b) state Post (Tolerated start) := by
  have sourceExtra : image.ptr p ∉ extra := fun held =>
    (inside.data quiet filled).2 (tables _ held)
  have targetExtra : image.ptr c ∉ extra := fun held =>
    (inside.data quiet present).2 (tables _ held)
  have targetPlain := inside.plain quiet present inside.file
  have sourcePlain := inside.plain quiet filled inside.file
  have targetHeld : image.ptr c ∉ insert (image.ptr p) extra := by
    rw [Finset.mem_insert, not_or]
    exact ⟨different, targetExtra⟩
  have idle : (state.buf (image.ptr c)).busy = false := by
    apply inside.core.calm.idle
    rw [Finset.mem_union, not_or]
    exact ⟨targetPlain, targetHeld⟩
  have both := inside.hold (inside.data quiet present).1
  refine Wp.bind (bread_wp (inside.core.calm.steady free) idle ?_)
  refine Wp.bind (blkcmp_wp ((both.core.calm.busy _).mpr (by simp))
    ((both.core.calm.busy _).mpr (by simp)) fun same compared => ?_)
  rw [State.data_hold, inside.contents quiet filled, inside.contents quiet present] at compared
  refine Wp.ite (fun equal => ?_) (fun unequal => ?_)
  · have found : Match start.disk image p c := ⟨filled, present, different, compared.mp equal⟩
    refine Wp.bind (deletedups_wp both quiet member candidate found unskipped first named file current target ?_ ?_)
    · intro sector isTable
      have held := busy sector isTable
      rw [Finset.mem_union] at held ⊢
      exact held.imp_right fun extraHeld =>
        Finset.mem_insert_of_mem (Finset.mem_insert_of_mem extraHeld)
    · intro after redirected frame
      rw [Finset.insert_comm] at redirected
      have one := redirected.release (by
        rw [Finset.mem_insert, not_or]
        exact ⟨different.symm, sourceExtra⟩) sourcePlain
      have two := one.release targetExtra targetPlain
      refine Wp.bind (brelse_wp ((redirected.core.calm.busy _).mpr (by simp)) ?_)
      refine Wp.bind (brelse_wp ((one.core.calm.busy _).mpr (by simp)) (Wp.pure ?_))
      exact shared _ ⟨_, two, frame⟩
  · refine Wp.bind (brelse_hold_wp idle (Wp.pure (kept fun found => ?_)))
    exact absurd (compared.mpr found.same) unequal

/-! ## The own file -/

theorem pointer_mem (inside : Inside free start done image inum ip extra taken locked state)
    (bounded : index < NDIRECT + indirects start.disk inum) : (inum, index) ∈ pointers := by
  rw [mem_pointers]
  refine ⟨⟨inside.file.1, inside.file.2.1⟩, ?_⟩
  unfold indirects at bounded
  simp only [NDIRECT, NINDIRECT, MAXFILE, BSIZE] at *
  split at bounded <;> omega

/-- Positions from the index on have been compared without finding a match. -/
def MissedFrom (free : Freedom) (start : State) (image : Image) (p : Pointer) (g index : Nat) :
    Prop :=
  ∀ d, Candidate (IsFile start.disk) p d → d.1 = g → index ≤ d.2 → Missed free.garbage start.disk image p d

theorem MissedFrom.earlier (missed : MissedFrom free start image (inum, index1) inum (index2 + 1)) :
    ∀ d, Candidate (IsFile start.disk) (inum, index1) d →
      Earlier (inum, index1) d (inum, index2) → Missed free.garbage start.disk image (inum, index1) d := by
  rintro d candidate (⟨same, later⟩ | ⟨_, other, _⟩)
  · exact missed d candidate same (later rfl)
  · exact absurd rfl other

theorem MissedFrom.step (missed : MissedFrom free start image p g (index + 1))
    (now : Missed free.garbage start.disk image p (g, index)) : MissedFrom free start image p g index := by
  intro d candidate same lower
  by_cases here : d.2 = index
  · have equal : d = (g, index) := Prod.ext same here
    rw [equal]
    exact now
  · exact missed d candidate same (by omega)

theorem MissedFrom.past (inside : Inside free start done image inum ip extra taken locked state)
    (p : Pointer) (g : Nat) :
    MissedFrom free start image p g (NDIRECT + indirects start.disk g) := by
  intro d candidate same lower found
  refine absurd ?_ found.present
  have bounded := candidate.1
  unfold indirects at lower
  split at lower
  · rename_i none
    rw [← same] at none
    exact inside.noTable none (by omega)
  · simp only [NDIRECT, NINDIRECT, MAXFILE, BSIZE] at *
    omega

theorem sameFileDirect_wp {a : Option Nat}
    (inside : Inside free start done image inum ip {image.ptr (inum, index1)} taken locked state)
    (quiet : Quiet start) (table : HasTable start.disk inum a) (direct : index1 < NDIRECT)
    (filled : image.ptr (inum, index1) ≠ 0) (later : index1 < index2)
    (bounded : index2 < NDIRECT + indirects start.disk inum)
    (missed : MissedFrom free start image (inum, index1) inum (index2 + 1))
    (shared : ∀ after, SharedFrom free start done inum ip ∅ taken locked (inum, index1) state after → Post true after)
    (kept : MissedFrom free start image (inum, index1) inum index2 → Post false state) :
    FsWp free (sameFileDirect ip a (image.ptr (inum, index1)) index1 index2) state Post (Tolerated start) := by
  have member := pointer_mem inside (Nat.lt_trans later bounded)
  have small := (mem_pointers.mp (pointer_mem inside bounded)).2
  have candidate : Candidate (IsFile start.disk) (inum, index1) (inum, index2) :=
    ⟨small, .inl ⟨rfl, later⟩⟩
  have unskipped : ¬ Skips image (inum, index1) (inum, index2) := fun skips => skips.1 rfl
  have nothing : ∀ sector ∈ (∅ : Finset Nat), IsTable start.disk sector := by simp
  have ruled : (¬ (image.ptr (inum, index1) ≠ 0 ∧ image.ptr (inum, index2) ≠ 0 ∧
      image.ptr (inum, index1) ≠ image.ptr (inum, index2))) → Post false state := fun fails =>
    kept (missed.step fun found => absurd ⟨found.filled, found.present, found.different.symm⟩ fails)
  refine Wp.bind (addrsAt_wp inside.file inside.current direct ?_)
  refine Wp.ite (fun low => ?_) (fun high => ?_)
  · refine Wp.bind (addrsAt_wp inside.file inside.current low ?_)
    refine Wp.ite (fun distinct => ?_) (fun fails => Wp.pure (ruled fails))
    exact compare_wp inside quiet nothing member filled distinct.2.1 distinct.2.2.symm candidate
      unskipped missed.earlier (.direct direct) inside.file inside.current (.direct low)
      (fun _ none => by cases none) shared fun now => kept (missed.step now)
  · obtain ⟨present, inTable⟩ := indirects_pos bounded high
    have held : (dinodeOf start.disk inum).addr NDIRECT ∈ tableSectors start.disk inum :=
      mem_tableSectors.mpr ⟨rfl, present⟩
    have position : NDIRECT + (index2 - NDIRECT) = index2 := by omega
    rw [table present]
    refine Wp.bind (tableAt_wp inside.core inside.file present (Finset.mem_union_left _ held) inTable ?_)
    rw [position]
    refine Wp.ite (fun distinct => ?_) (fun fails => Wp.pure (ruled fails))
    refine compare_wp inside quiet nothing member filled distinct.2.1 distinct.2.2.symm candidate
      unskipped missed.earlier (.direct direct) inside.file inside.current
      (.of_index present inTable high) ?_ shared fun now => kept (missed.step now)
    intro sector isTable
    rw [← Option.some.inj isTable]
    exact Finset.mem_union_left _ held

theorem sameFileIndirect_wp {offset1 offset2 : Nat}
    (inside : Inside free start done image inum ip {image.ptr (inum, NDIRECT + offset1)} taken locked state)
    (quiet : Quiet start) (present : (dinodeOf start.disk inum).addr NDIRECT ≠ 0)
    (filled : image.ptr (inum, NDIRECT + offset1) ≠ 0) (later : offset1 < offset2)
    (bounded : offset2 < NINDIRECT)
    (missed : MissedFrom free start image (inum, NDIRECT + offset1) inum (NDIRECT + offset2 + 1))
    (shared : ∀ after, SharedFrom free start done inum ip ∅ taken locked (inum, NDIRECT + offset1) state after → Post true after)
    (kept : MissedFrom free start image (inum, NDIRECT + offset1) inum (NDIRECT + offset2) → Post false state) :
    FsWp free (sameFileIndirect ip ((dinodeOf start.disk inum).addr NDIRECT)
      (image.ptr (inum, NDIRECT + offset1)) offset1 offset2) state Post (Tolerated start) := by
  have whole : indirects start.disk inum = NINDIRECT := if_neg present
  have member : (inum, NDIRECT + offset1) ∈ pointers := pointer_mem inside (by omega)
  have small := (mem_pointers.mp (pointer_mem inside
    (show NDIRECT + offset2 < NDIRECT + indirects start.disk inum by omega))).2
  have candidate : Candidate (IsFile start.disk) (inum, NDIRECT + offset1)
      (inum, NDIRECT + offset2) := ⟨small, .inl ⟨rfl, by simp only; omega⟩⟩
  have held : (dinodeOf start.disk inum).addr NDIRECT ∈ tableSectors start.disk inum :=
    mem_tableSectors.mpr ⟨rfl, present⟩
  refine Wp.bind (tableAt_wp inside.core inside.file present (Finset.mem_union_left _ held) bounded ?_)
  refine Wp.bind (tableAt_wp inside.core inside.file present (Finset.mem_union_left _ held) (by omega) ?_)
  refine Wp.ite (fun distinct => ?_) (fun fails => Wp.pure ?_)
  · refine compare_wp inside quiet (by simp) member filled distinct.1 distinct.2 candidate
      (fun skips => skips.1 rfl) missed.earlier (.entry present (by omega)) inside.file
      inside.current (.entry present bounded) ?_ shared fun now => kept (missed.step now)
    intro sector isTable
    rw [← Option.some.inj isTable]
    exact Finset.mem_union_left _ held
  · exact kept (missed.step fun found => absurd ⟨found.present, found.different⟩ fails)

/-! ## Another file -/

theorem addrsAt_past_wp {Post : Nat → State → Prop} (past : NDIRECT < index)
    (next : ∀ value, (free.garbage = false → value = 0) → Post value state) :
    FsWp free (addrsAt ip index) state Post Stops := by
  refine Wp.peek ?_
  rw [if_neg (by omega)]
  refine Wp.bind (Wp.remembered fun memo allowed => ?_)
  refine Wp.bind (Wp.remember ?_ (Wp.pure (next _ ?_)))
  · intro memo allowed
    exact ⟨allowed.recycle, fun still => by simp [allowed.garbage still], allowed.counts⟩
  · intro still
    simp [allowed.garbage still]

theorem sameBlock_wp {aSub : Option Nat} {c : Pointer}
    (inside : Inside free start done image inum ip extra taken locked state) (quiet : Quiet start)
    (named : Names start.disk inum aSub index1 p) (other : c.1 ≠ p.1)
    (next : ∀ skip : Bool, (skip = true → image.ptr c ≠ 0 → image.ptr c ≠ image.ptr p → Skips image p c ∨ (free.garbage = true ∧ Overruns p c)) → (skip = false → image.ptr c ≠ 0 → image.ptr c ≠ image.ptr p ∧ ¬ Skips image p c) → Post skip state) :
    FsWp free (sameBlock ip aSub index1 (image.ptr c)) state Post Stops := by
  cases named with
  | direct bounded =>
    refine Wp.bind (addrsAt_wp inside.file inside.current bounded (Wp.pure (next _ ?_ ?_)))
    · intro equal _ different
      exact absurd (of_decide_eq_true equal) different
    · intro unequal _
      exact ⟨of_decide_eq_false unequal, fun skips => absurd skips.2.1 (Nat.not_le.mpr bounded)⟩
  | entry present bounded =>
    have held : (dinodeOf start.disk inum).addr NDIRECT ∈ tableSectors start.disk inum :=
      mem_tableSectors.mpr ⟨rfl, present⟩
    refine Wp.bind (tableAt_wp inside.core inside.file present (Finset.mem_union_left _ held) bounded ?_)
    refine Wp.ite (fun equal => Wp.pure (next _ (fun _ _ different => absurd equal different)
      (fun contradiction => by cases contradiction))) (fun different => ?_)
    have position : NDIRECT + index1 - NDIRECT = index1 := Nat.add_sub_cancel_left _ _
    -- the subscript is that of the table although `addrs` is read
    rcases Nat.lt_trichotomy index1 NDIRECT with low | middle | high
    · refine Wp.bind (addrsAt_wp inside.file inside.current low (Wp.pure (next _ ?_ ?_)))
      · intro equal _ _
        refine .inl ⟨other, Nat.le_add_right _ _, ?_, ?_⟩
        · rw [position]
          exact low
        · rw [position]
          exact of_decide_eq_true equal
      · intro unequal _
        refine ⟨different, fun skips => of_decide_eq_false unequal ?_⟩
        have designated := skips.2.2.2
        rw [position] at designated
        exact designated
    · have noSkip : ¬ Skips image (inum, NDIRECT + index1) c := by
        intro skips
        have below := skips.2.2.1
        omega
      subst middle
      refine Wp.bind (Wp.peek ?_)
      refine Wp.pure (Wp.pure (next _ ?_ fun _ _ => ⟨different, noSkip⟩))
      intro equal filled _
      rw [inside.current, addr_fileInode_table, decide_eq_true_eq] at equal
      exact absurd ⟨inum, inside.file.allocated, equal.symm, filled⟩ (inside.data quiet filled).2
    · have noSkip : ¬ Skips image (inum, NDIRECT + index1) c := by
        intro skips
        have below := skips.2.2.1
        omega
      refine Wp.bind (addrsAt_past_wp high fun value known => Wp.pure (next _ ?_ fun _ _ => ⟨different, noSkip⟩))
      intro equal filled _
      have read := of_decide_eq_true equal
      cases anything : free.garbage with
      | false => exact absurd (read.trans (known anything)) filled
      | true => exact .inr ⟨rfl, other, by simp only; omega⟩

/-- All blocks of the own file and of the files above the limit have been
compared. -/
def MissedAbove (free : Freedom) (start : State) (image : Image) (p : Pointer) (limit : Nat) :
    Prop :=
  ∀ d, Candidate (IsFile start.disk) p d → d.1 = p.1 ∨ limit < d.1 → Missed free.garbage start.disk image p d

theorem crossFileRound_wp {aSub b : Option Nat} {ip2 : Slot}
    (inside : Inside free start done image inum ip (insert (image.ptr p) (tableSectors start.disk g)) taken locked state)
    (quiet : Quiet start) (named : Names start.disk inum aSub index1 p) (member : p ∈ pointers)
    (own : p.1 = inum) (filled : image.ptr p ≠ 0) (file : IsFile start.disk g) (above : inum < g)
    (current : (state.icache ip2).toDinode = fileInode start.disk image g)
    (table : HasTable start.disk g b) (bounded : index2 < NDIRECT + indirects start.disk g)
    (higher : MissedAbove free start image p g)
    (missed : MissedFrom free start image p g (index2 + 1))
    (shared : ∀ after, SharedFrom free start done inum ip (tableSectors start.disk g) taken locked p state after → Post true after)
    (kept : MissedFrom free start image p g index2 → Post false state) :
    FsWp free (crossFileRound ip ip2 aSub b (image.ptr p) index1 index2) state Post (Tolerated start) := by
  have small : index2 < MAXFILE := by
    unfold indirects at bounded
    simp only [NDIRECT, NINDIRECT, MAXFILE, BSIZE] at *
    split at bounded <;> omega
  have candidate : Candidate (IsFile start.disk) p (g, index2) :=
    ⟨small, .inr ⟨by simp only; omega, file⟩⟩
  have other : (g, index2).1 ≠ p.1 := by simp only; omega
  have tables : ∀ sector ∈ tableSectors start.disk g, IsTable start.disk sector := by
    intro sector included
    obtain ⟨same, nonzero⟩ := mem_tableSectors.mp included
    exact ⟨g, file.allocated, same, nonzero⟩
  have first : ∀ d, Candidate (IsFile start.disk) p d → Earlier p d (g, index2) →
      Missed free.garbage start.disk image p d := by
    rintro d isCandidate (⟨same, _⟩ | ⟨_, _, lower | ⟨same, later⟩⟩)
    · exact higher d isCandidate (.inl same)
    · exact higher d isCandidate (.inr lower)
    · exact missed d isCandidate same later
  -- what remains once the value of the candidate is read
  have round : ∀ (table2 : Option Nat) (position : Nat), Names start.disk g table2 position (g, index2) →
      (∀ sector, table2 = some sector → sector ∈ tableSectors start.disk g) →
      FsWp free (do
        let skip ← sameBlock ip aSub index1 (image.ptr (g, index2))
        if skip then pure false
        else if image.ptr (g, index2) = 0 then pure false
        else do
          let b2 ← bread (image.ptr (g, index2))
          shareIfEqual ip ip2 (image.ptr p) b2 index1 position aSub table2) state Post
        (Tolerated start) := by
    intro table2 position target held
    refine Wp.bind (sameBlock_wp inside quiet named other fun skip skipped passed => ?_)
    refine Wp.ite (fun yes => Wp.pure (kept (missed.step fun found =>
      skipped yes found.present found.different))) (fun no => ?_)
    refine Wp.ite (fun zero => Wp.pure (kept (missed.step fun found =>
      absurd zero found.present))) (fun present => ?_)
    obtain ⟨different, unskipped⟩ := passed (Bool.not_eq_true _ ▸ no) present
    exact compare_wp inside quiet tables member filled present different candidate unskipped first
      named file current target (fun sector isTable => Finset.mem_union_right _
        (held sector isTable)) shared fun now => kept (missed.step now)
  refine Wp.ite (fun low => ?_) (fun high => ?_)
  · exact Wp.bind (addrsAt_wp file current low (round none index2 (.direct low) fun _ none => by cases none))
  · obtain ⟨present, inTable⟩ := indirects_pos bounded high
    have held : (dinodeOf start.disk g).addr NDIRECT ∈ tableSectors start.disk g :=
      mem_tableSectors.mpr ⟨rfl, present⟩
    have position : NDIRECT + (index2 - NDIRECT) = index2 := by omega
    rw [table present]
    refine Wp.bind (tableAt_wp inside.core file present (Finset.mem_union_right _
      (Finset.mem_insert_of_mem held)) inTable ?_)
    rw [position]
    refine round _ _ (.of_index present inTable high) fun sector isTable => ?_
    rw [← Option.some.inj isTable]
    exact held

end Scan

end Xv6Dedup
