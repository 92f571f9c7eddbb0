import Mathlib.Data.Finset.Max
import Xv6Dedup.Dedup.Outcome

/-!
# When one pass merges all equal blocks

A block is redirected once, to the first match among the blocks that are still
to come. Whether all blocks with the same contents end up in one sector depends
on how the occurrences were distributed over sectors before.
-/

set_option autoImplicit false

namespace Xv6Dedup

open Function Sharing

def Before (p q : Pointer) : Prop := p.1 < q.1 ∨ (p.1 = q.1 ∧ p.2 < q.2)

theorem Before.trichotomy {p q : Pointer} (different : p ≠ q) : Before p q ∨ Before q p := by
  rcases Nat.lt_trichotomy p.1 q.1 with less | same | more
  · exact .inl (.inl less)
  · rcases Nat.lt_trichotomy p.2 q.2 with less | equal | more
    · exact .inl (.inr ⟨same, less⟩)
    · exact absurd (Prod.ext same equal) different
    · exact .inr (.inr ⟨same.symm, more⟩)
  · exact .inr (.inl more)

theorem Before.asymm {p q : Pointer} (forth : Before p q) : ¬ Before q p := by
  rintro (less | ⟨same, less⟩)
  · rcases forth with other | ⟨equal, _⟩ <;> omega
  · rcases forth with other | ⟨_, other⟩ <;> omega

/-! ## One visit of a complete pass -/

section Visit

variable {free : Bool} {Chosen : Nat → Prop} {content : Blocks} {initial image : Image}
  {done : List Pointer} {p : Pointer}

/-- The visit of one pointer within a run: pointers visited before have their
final values, the others still their first ones. -/
theorem Steps.visit (steps : Steps free Chosen content initial done image) (distinct : done.Nodup) (member : p ∈ done) :
    ∃ before after current next, done = before ++ p :: after ∧
      BlockStep free Chosen content p current next ∧ next.ptr p = image.ptr p ∧
      (∀ q ∈ before, current.ptr q = image.ptr q) ∧
      ∀ q, q ∉ before → current.ptr q = initial.ptr q := by
  induction steps with
  | nil => cases member
  | @snoc done last image next earlier step ih =>
    obtain ⟨shorter, _, apart⟩ := List.nodup_append.mp distinct
    have fresh : last ∉ done := fun visited => apart last visited last (by simp) rfl
    rcases List.mem_append.mp member with visited | here
    · obtain ⟨before, after, current, changed, split, visit, same, past, future⟩ :=
        ih shorter visited
      refine ⟨before, after ++ [last], current, changed, ?_, visit, ?_, ?_, future⟩
      · rw [split, List.append_assoc, List.cons_append]
      · rw [same, step.other fun equal => fresh (equal ▸ visited)]
      · intro q included
        rw [past q included, step.other]
        rintro rfl
        exact fresh (split ▸ List.mem_append_left _ included)
    · rw [List.mem_singleton] at here
      subst here
      refine ⟨done, [], image, next, rfl, step, rfl, ?_, ?_⟩
      · intro q included
        exact (step.other fun equal => fresh (equal ▸ included)).symm
      · exact fun q excluded => earlier.other excluded

theorem row_pairwise (inum count : Nat) : (row inum count).Pairwise Before := by
  induction count with
  | zero => exact List.Pairwise.nil
  | succ count ih =>
    rw [row_succ, List.pairwise_append]
    refine ⟨ih, List.pairwise_singleton _ _, ?_⟩
    intro q visited last here
    obtain ⟨same, bounded⟩ := mem_row.mp visited
    rw [List.mem_singleton.mp here]
    exact .inr ⟨same, bounded⟩

theorem scanBelow_pairwise [DecidablePred Chosen] (inum : Nat) : (scanBelow Chosen inum).Pairwise Before := by
  induction inum with
  | zero => exact List.Pairwise.nil
  | succ inum ih =>
    rw [scanBelow, List.pairwise_append]
    refine ⟨ih, ?_, ?_⟩
    · split
      · exact row_pairwise inum MAXFILE
      · exact List.Pairwise.nil
    · intro q visited last here
      have below := (mem_scanBelow.mp visited).2.1
      split at here
      · exact .inl ((mem_row.mp here).1 ▸ below)
      · cases here

theorem Steps.visited [DecidablePred Chosen] {limit : Nat}
    (steps : Steps free Chosen content initial (scanBelow Chosen limit) image) (member : p ∈ scanBelow Chosen limit) :
    ∃ current next, BlockStep free Chosen content p current next ∧ next.ptr p = image.ptr p ∧
      (∀ q, Before q p → current.ptr q = image.ptr q) ∧ ∀ q, ¬ Before q p → current.ptr q = initial.ptr q := by
  have ordered : (scanBelow Chosen limit).Pairwise Before := scanBelow_pairwise limit
  have distinct : (scanBelow Chosen limit).Nodup := ordered.imp fun before => by
    rintro rfl
    exact before.asymm before
  obtain ⟨before, after, current, next, split, visit, same, past, future⟩ :=
    steps.visit distinct member
  rw [split, List.pairwise_append, List.pairwise_cons] at ordered
  refine ⟨current, next, visit, same, ?_, ?_⟩
  · intro q earlier
    by_cases visited : q ∈ before
    · exact past q visited
    · rw [future q visited]
      refine (steps.other fun scanned => ?_).symm
      rw [split, List.mem_append, List.mem_cons] at scanned
      rcases scanned with first | rfl | later
      · exact visited first
      · exact earlier.asymm earlier
      · exact earlier.asymm (ordered.2.1.1 q later)
  · intro q later
    exact future q fun visited => later (ordered.2.2 q visited p List.mem_cons_self)

end Visit

/-! ## The distribution of equal blocks -/

/-- A block pointer of a file whose sector has the given contents. -/
def Occurs (blocks : Blocks) (value : Block) (p : Pointer) : Prop :=
  IsFile blocks p.1 ∧ pointersOf blocks p ≠ 0 ∧ blocks (pointersOf blocks p) = value

def LastOccurrence (blocks : Blocks) (value : Block) (last : Pointer) : Prop :=
  Occurs blocks value last ∧ ∀ q, Occurs blocks value q → ¬ Before last q

/-- The file of `p` has an occurrence on the given sector. -/
def FileUses (blocks : Blocks) (value : Block) (sector : Nat) (p : Pointer) : Prop :=
  ∃ r, Occurs blocks value r ∧ r.1 = p.1 ∧ pointersOf blocks r = sector

/-- Contents whose last occurrence is on `sector` can be merged in one pass. -/
structure MergeableOn (blocks : Blocks) (value : Block) (sector : Nat) : Prop where
  /-- After an occurrence on the sector all occurrences are on it. -/
  suffix : ∀ p q, Occurs blocks value p → Occurs blocks value q → Before p q →
    pointersOf blocks p = sector → pointersOf blocks q = sector
  /-- In a file without occurrence on the sector all occurrences share a sector. -/
  together : ∀ p q, Occurs blocks value p → Occurs blocks value q → p.1 = q.1 →
    FileUses blocks value sector p ∨ pointersOf blocks p = pointersOf blocks q
  /-- No such file has the contents both in a direct block and at the position
  of the same number in its indirect table. -/
  noEcho : ∀ p q, Occurs blocks value p → Occurs blocks value q → p.1 = q.1 →
    p.2 < NDIRECT → q.2 = NDIRECT + p.2 → FileUses blocks value sector p

def Mergeable (blocks : Blocks) : Prop :=
  ∀ value last, LastOccurrence blocks value last → MergeableOn blocks value (pointersOf blocks last)

/-- A file that shares contents with a later file has them only in blocks whose
comparison stays inside `addrs`. -/
def WithinAddrs (blocks : Blocks) : Prop :=
  ∀ value last p, LastOccurrence blocks value last → Occurs blocks value p →
    NDIRECT + NDIRECT + 1 ≤ p.2 → FileUses blocks value (pointersOf blocks last) p

/-- Blocks of files with the same contents are the same sector. -/
def Merged (blocks : Blocks) : Prop :=
  ∀ value p q, Occurs blocks value p → Occurs blocks value q → pointersOf blocks p = pointersOf blocks q

theorem pointersOf_bounded {blocks : Blocks} {p : Pointer} (present : pointersOf blocks p ≠ 0) : p.2 < MAXFILE := by
  by_contra past
  apply present
  have direct : ¬ p.2 < NDIRECT := by
    simp only [MAXFILE] at past
    omega
  simp only [pointersOf, blockPointer, direct, if_false, past, false_and, ite_self]

section Merging

variable {garbage : Bool} {blocks : Blocks} {image : Image} {value : Block} {last p q : Pointer}

theorem exists_lastOccurrence (occurs : Occurs blocks value p) : ∃ last, LastOccurrence blocks value last := by
  classical
  have member : ∀ {q}, Occurs blocks value q → q ∈ pointers.filter (Occurs blocks value) :=
    fun occurs => Finset.mem_filter.mpr ⟨mem_pointers.mpr
      ⟨⟨occurs.1.1, occurs.1.2.1⟩, pointersOf_bounded occurs.2.1⟩, occurs⟩
  obtain ⟨last, found, largest⟩ := Finset.exists_max_image
    (pointers.filter (Occurs blocks value)) (fun q => q.1 * MAXFILE + q.2) ⟨p, member occurs⟩
  have isLast := (Finset.mem_filter.mp found).2
  refine ⟨last, isLast, fun q other later => ?_⟩
  have bounded := largest q (member other)
  have small := pointersOf_bounded isLast.2.1
  rcases later with less | ⟨same, less⟩
  · have step : (last.1 + 1) * MAXFILE ≤ q.1 * MAXFILE := Nat.mul_le_mul_right _ less
    rw [Nat.add_mul] at step
    omega
  · rw [same] at bounded
    omega

theorem Occurs.candidate (occurs : Occurs blocks value q) (later : Before p q) : Candidate (IsFile blocks) p q := by
  refine ⟨pointersOf_bounded occurs.2.1, ?_⟩
  rcases later with less | ⟨same, less⟩
  · exact .inr ⟨less, occurs.1⟩
  · exact .inl ⟨same.symm, less⟩

structure VisitOf (garbage : Bool) (blocks : Blocks) (image : Image) (p : Pointer)
    (current next : Image) : Prop where
  step : BlockStep garbage (IsFile blocks) blocks p current next
  result : next.ptr p = image.ptr p
  past : ∀ q, Before q p → current.ptr q = image.ptr q
  future : ∀ q, ¬ Before q p → current.ptr q = pointersOf blocks q

theorem Occurs.visit (steps : Steps garbage (IsFile blocks) blocks (sharesOf blocks)
      (scanBelow (IsFile blocks) NINODES) image)
    (occurs : Occurs blocks value p) : ∃ current next, VisitOf garbage blocks image p current next := by
  obtain ⟨current, next, step, result, past, future⟩ := steps.visited
    (mem_scanBelow.mpr ⟨occurs.1, occurs.1.2.1, pointersOf_bounded occurs.2.1⟩)
  exact ⟨current, next, step, result, past, future⟩

theorem VisitOf.here {current next : Image} (visit : VisitOf garbage blocks image p current next) :
    current.ptr p = pointersOf blocks p := visit.future p fun before => before.asymm before

theorem VisitOf.target {current next : Image} (visit : VisitOf garbage blocks image p current next)
    (occurs : Occurs blocks value p) (candidate : Candidate (IsFile blocks) p q) (found : Match blocks current p q) :
    Before p q ∧ Occurs blocks value q ∧ current.ptr q = pointersOf blocks q := by
  have later : Before p q := by
    rcases candidate.2 with ⟨same, less⟩ | ⟨less, _⟩
    · exact .inr ⟨same.symm, less⟩
    · exact .inl less
  have here := visit.here
  have there := visit.future q later.asymm
  refine ⟨later, ⟨?_, ?_, ?_⟩, there⟩
  · rcases candidate.2 with ⟨same, _⟩ | ⟨_, file⟩
    · exact same ▸ occurs.1
    · exact file
  · rw [← there]
    exact found.present
  · rw [← there, ← found.same, here]
    exact occurs.2.2

theorem VisitOf.match_of {current next : Image} (visit : VisitOf garbage blocks image p current next)
    (occurs : Occurs blocks value p) (other : Occurs blocks value q) (later : Before p q)
    (different : pointersOf blocks q ≠ pointersOf blocks p) : Match blocks current p q := by
  have here := visit.here
  have there := visit.future q later.asymm
  refine ⟨?_, ?_, ?_, ?_⟩
  · rw [here]
    exact occurs.2.1
  · rw [there]
    exact other.2.1
  · rw [here, there]
    exact different
  · rw [here, there, occurs.2.2, other.2.2]

section

variable (steps : Steps garbage (IsFile blocks) blocks (sharesOf blocks) (scanBelow (IsFile blocks) NINODES) image)
include steps

theorem LastOccurrence.kept (isLast : LastOccurrence blocks value last) : image.ptr last = pointersOf blocks last := by
  obtain ⟨current, next, visit⟩ := isLast.1.visit steps
  have here := visit.here
  rw [← visit.result, ← here]
  cases visit.step with
  | hole | unique => rfl
  | shared c candidate found taken first =>
    obtain ⟨later, occurs, _⟩ := visit.target isLast.1 candidate found
    exact absurd later (isLast.2 c occurs)

theorem occurs_of_final (occurs : Occurs blocks value q) (file : IsFile blocks p.1)
    (same : image.ptr p = pointersOf blocks q) : Occurs blocks value p := by
  obtain ⟨zero, contents⟩ := steps.contents p
  refine ⟨file, fun hole => occurs.2.1 ?_, ?_⟩
  · rw [← same, zero]
    exact hole
  · rw [same] at contents
    exact contents.symm.trans occurs.2.2

end

theorem VisitOf.not_missed {current next : Image} (visit : VisitOf garbage blocks image p current next)
    (steps : Steps garbage (IsFile blocks) blocks (sharesOf blocks) (scanBelow (IsFile blocks) NINODES) image)
    (occurs : Occurs blocks value p) (isLast : LastOccurrence blocks value last)
    (mergeable : MergeableOn blocks value (pointersOf blocks last))
    (within : garbage = true → NDIRECT + NDIRECT + 1 ≤ p.2 → FileUses blocks value (pointersOf blocks last) p)
    (alone : ¬ FileUses blocks value (pointersOf blocks last) p) :
    Before p last ∧ ¬ Missed garbage blocks current p last := by
  have elsewhere : pointersOf blocks p ≠ pointersOf blocks last := fun same =>
    alone ⟨p, occurs, rfl, same⟩
  have later : Before p last :=
    (Before.trichotomy fun same => elsewhere (by rw [same])).resolve_right (isLast.2 p occurs)
  refine ⟨later, fun missed => ?_⟩
  rcases missed (visit.match_of occurs isLast.1 later elsewhere.symm) with
    ⟨_, inTable, position, designated⟩ | ⟨anything, _, past⟩
  · have earlier : Before (p.1, p.2 - NDIRECT) p := .inr ⟨rfl, by simp only; omega⟩
    rw [visit.future last later.asymm, visit.past _ earlier] at designated
    have echo : Occurs blocks value (p.1, p.2 - NDIRECT) :=
      occurs_of_final steps isLast.1 occurs.1 designated.symm
    have used := mergeable.noEcho (p.1, p.2 - NDIRECT) p echo occurs rfl position (by simp only; omega)
    exact alone used
  · exact alone (within anything past)

theorem merged_of_mergeable (steps : Steps garbage (IsFile blocks) blocks (sharesOf blocks)
      (scanBelow (IsFile blocks) NINODES) image) (isLast : LastOccurrence blocks value last)
    (mergeable : MergeableOn blocks value (pointersOf blocks last))
    (within : garbage = true → ∀ q, Occurs blocks value q → NDIRECT + NDIRECT + 1 ≤ q.2 →
      FileUses blocks value (pointersOf blocks last) q)
    (occurs : Occurs blocks value p) : image.ptr p = pointersOf blocks last := by
  obtain ⟨current, next, visit⟩ := occurs.visit steps
  have here := visit.here
  have narrow := fun anything => within anything p occurs
  -- an occurrence on the sector in the own file comes later and is found
  have own : ∀ r, Occurs blocks value r → r.1 = p.1 → pointersOf blocks r = pointersOf blocks last →
      pointersOf blocks p ≠ pointersOf blocks last →
      Before p r ∧ ¬ Missed garbage blocks current p r := by
    intro r other sameFile onSector elsewhere
    have distinct : p ≠ r := fun same => elsewhere (by rw [same]; exact onSector)
    have later : Before p r := (Before.trichotomy distinct).resolve_right fun before =>
      elsewhere (mergeable.suffix r p other occurs before onSector)
    refine ⟨later, fun missed => ?_⟩
    rcases missed (visit.match_of occurs other later (by rw [onSector]; exact elsewhere.symm)) with
      skips | ⟨_, overruns⟩
    · exact skips.1 sameFile
    · exact overruns.1 sameFile
  by_cases already : pointersOf blocks p = pointersOf blocks last
  · -- everything later is on the same sector
    rw [← visit.result]
    cases visit.step with
    | hole | unique =>
      rw [here]
      exact already
    | shared c candidate found taken first =>
      obtain ⟨later, other, there⟩ := visit.target occurs candidate found
      have same := mergeable.suffix p c occurs other later already
      exact absurd (by rw [there, here, same, already]) found.different
  · rw [← visit.result]
    cases visit.step with
    | hole empty =>
      rw [here] at empty
      exact absurd empty occurs.2.1
    | unique filled missed =>
      by_cases uses : FileUses blocks value (pointersOf blocks last) p
      · obtain ⟨r, other, sameFile, onSector⟩ := uses
        obtain ⟨later, found⟩ := own r other sameFile onSector already
        exact absurd (missed r (other.candidate later)) found
      · obtain ⟨later, found⟩ :=
          visit.not_missed steps occurs isLast mergeable narrow uses
        exact absurd (missed last (isLast.1.candidate later)) found
    | shared c candidate found taken first =>
      obtain ⟨later, other, there⟩ := visit.target occurs candidate found
      simp only [Shares.redirect, update_self]
      rw [there]
      by_contra wrong
      by_cases uses : FileUses blocks value (pointersOf blocks last) p
      · obtain ⟨r, onSectorOccurs, sameFile, onSector⟩ := uses
        obtain ⟨afterP, missedNot⟩ := own r onSectorOccurs sameFile onSector already
        refine missedNot (first r (onSectorOccurs.candidate afterP) (.inl ⟨sameFile, ?_⟩))
        intro ownFile
        have distinct : c ≠ r := fun same => wrong (by rw [same]; exact onSector)
        rcases Before.trichotomy distinct with before | before
        · rcases before with less | ⟨_, less⟩
          · omega
          · exact less
        · exact absurd (mergeable.suffix r c onSectorOccurs other before onSector) wrong
      · obtain ⟨beforeLast, missedNot⟩ :=
          visit.not_missed steps occurs isLast mergeable narrow uses
        have lastFile : last.1 ≠ p.1 := fun same => uses ⟨last, isLast.1, same, rfl⟩
        have otherFile : c.1 ≠ p.1 := by
          intro same
          rcases mergeable.together p c occurs other same.symm with used | equal
          · exact uses used
          · exact found.different (by rw [there, here, equal])
        have distinct : c ≠ last := fun same => wrong (by rw [same])
        have order : Before c last :=
          (Before.trichotomy distinct).resolve_right (isLast.2 c other)
        refine missedNot (first last (isLast.1.candidate beforeLast) (.inr ⟨lastFile, otherFile, ?_⟩))
        rcases order with less | ⟨same, less⟩
        · exact .inl less
        · exact .inr ⟨same.symm, less⟩

theorem mergeable_of_merged (steps : Steps false (IsFile blocks) blocks (sharesOf blocks)
      (scanBelow (IsFile blocks) NINODES) image)
    (merged : ∀ q, Occurs blocks value q → image.ptr q = pointersOf blocks last) :
    MergeableOn blocks value (pointersOf blocks last) := by
  -- an occurrence that starts on another sector was redirected to the last one
  have redirected : ∀ p, Occurs blocks value p → pointersOf blocks p ≠ pointersOf blocks last →
      ∃ current next c, VisitOf false blocks image p current next ∧
        Occurs blocks value c ∧ Before p c ∧ pointersOf blocks c = pointersOf blocks last ∧
        ¬ Skips current p c ∧
        ∀ d, Candidate (IsFile blocks) p d → Earlier p d c → Missed false blocks current p d := by
    intro p occurs elsewhere
    obtain ⟨current, next, visit⟩ := occurs.visit steps
    have here := visit.here
    have result := visit.result
    rw [merged p occurs] at result
    have step := visit.step
    cases step with
    | hole | unique =>
      rw [here] at result
      exact absurd result elsewhere
    | shared c candidate found taken first =>
      obtain ⟨later, other, there⟩ := visit.target occurs candidate found
      simp only [Shares.redirect, update_self] at result
      rw [there] at result
      exact ⟨current, _, c, visit, other, later, result, taken, first⟩
  refine ⟨?_, ?_, ?_⟩
  · intro p q occurs other later onSector
    by_contra elsewhere
    obtain ⟨current, next, visit⟩ := occurs.visit steps
    have here := visit.here
    have result := visit.result
    rw [merged p occurs] at result
    have step := visit.step
    cases step with
    | hole empty =>
      rw [here] at empty
      exact occurs.2.1 empty
    | unique filled missed =>
      have found := visit.match_of occurs other later fun same => elsewhere (same.trans onSector)
      rcases missed q (other.candidate later) found with
        ⟨_, inTable, _, designated⟩ | ⟨impossible, _⟩
      · -- the skipped sector belongs to a direct block that is merged too
        have earlier : Before (p.1, p.2 - NDIRECT) p := .inr ⟨rfl, by
          omega⟩
        rw [visit.future q later.asymm, visit.past _ earlier] at designated
        have echo : Occurs blocks value (p.1, p.2 - NDIRECT) :=
          occurs_of_final steps other occurs.1 designated.symm
        exact elsewhere (designated.trans (merged _ echo))
      · cases impossible
    | shared c candidate found taken first =>
      simp only [Shares.redirect, update_self] at result
      exact found.different (result.trans (onSector.symm.trans here.symm))
  · intro p q occurs other sameFile
    by_contra neither
    obtain ⟨unused, different⟩ := not_or.mp neither
    -- whichever comes first would have been redirected to the other
    have clash : ∀ first second, Occurs blocks value first → Occurs blocks value second →
        first.1 = second.1 → Before first second →
        pointersOf blocks first ≠ pointersOf blocks second →
        ¬ FileUses blocks value (pointersOf blocks last) first → False := by
      intro first second firstOccurs secondOccurs same order apart alone
      have elsewhere : pointersOf blocks first ≠ pointersOf blocks last := fun equal =>
        alone ⟨first, firstOccurs, rfl, equal⟩
      obtain ⟨current, next, c, visit, target, _, onSector, _, earlierMissed⟩ :=
        redirected first firstOccurs elsewhere
      have otherFile : c.1 ≠ first.1 := fun equal => alone ⟨c, target, equal, onSector⟩
      have missed := earlierMissed second (secondOccurs.candidate order)
        (.inl ⟨same.symm, fun equal => absurd equal otherFile⟩)
      rcases missed (visit.match_of firstOccurs secondOccurs order apart.symm) with
        skips | ⟨impossible, _⟩
      · exact skips.1 same.symm
      · cases impossible
    have distinct : p ≠ q := fun same => different (by rw [same])
    rcases Before.trichotomy distinct with order | order
    · exact clash p q occurs other sameFile order different unused
    · refine clash q p other occurs sameFile.symm order (Ne.symm different) ?_
      rintro ⟨r, uses, same, onSector⟩
      exact unused ⟨r, uses, same.trans sameFile.symm, onSector⟩
  · intro p q occurs other sameFile direct position
    by_contra alone
    have aloneQ : ¬ FileUses blocks value (pointersOf blocks last) q := by
      rintro ⟨r, uses, same, onSector⟩
      exact alone ⟨r, uses, same.trans sameFile.symm, onSector⟩
    have elsewhere : pointersOf blocks q ≠ pointersOf blocks last := fun equal =>
      aloneQ ⟨q, other, rfl, equal⟩
    obtain ⟨current, next, c, visit, target, later, onSector, taken, _⟩ :=
      redirected q other elsewhere
    have echo : (q.1, q.2 - NDIRECT) = p := by
      refine Prod.ext sameFile.symm ?_
      omega
    have earlier : Before p q := .inr ⟨sameFile, by omega⟩
    refine taken ⟨fun same => aloneQ ⟨c, target, same, onSector⟩, by omega, by omega, ?_⟩
    rw [echo, visit.future c later.asymm, visit.past p earlier, onSector, merged p occurs]

end Merging

/-! ## The disk after a pass -/

section Disk

variable {free : Freedom} {start state : State} {image : Image} {memo : Memo} {next : State × Memo}

section

variable (between : Between free start (scanBelow (IsFile start.disk) NINODES) image state)
include between

theorem Between.occurs_iff (quiet : Quiet start) (value : Block) (p : Pointer) :
    Occurs state.disk value p ↔ Occurs start.disk value p := by
  have file : IsFile state.disk p.1 ↔ IsFile start.disk p.1 :=
    and_congr_right fun _ => and_congr_right fun bounded => by rw [between.type bounded]
  have hole := (between.steps.contents p).1
  unfold Occurs
  rw [file, between.pointersOf_eq quiet scan_files, Ne, hole]
  refine and_congr_right fun _ => and_congr_right fun present => ?_
  rw [between.contents quiet fun zero => present (hole.mp zero)]
  rfl

theorem Between.merged_iff (quiet : Quiet start) :
    Merged state.disk ↔ ∀ value p q, Occurs start.disk value p → Occurs start.disk value q →
      image.ptr p = image.ptr q := by
  unfold Merged
  simp only [between.occurs_iff quiet, between.pointersOf_eq quiet scan_files]

theorem Between.merged_of_mergeable (quiet : Quiet start) (mergeable : Mergeable start.disk)
    (within : free.garbage = true → WithinAddrs start.disk) : Merged state.disk := by
  rw [between.merged_iff quiet]
  intro value p q occurs other
  obtain ⟨last, isLast⟩ := exists_lastOccurrence occurs
  have moved : ∀ r, Occurs start.disk value r → image.ptr r = pointersOf start.disk last :=
    fun r here => Xv6Dedup.merged_of_mergeable between.steps isLast (mergeable value last isLast)
      (fun anything s there past => within anything value last s isLast there past) here
  rw [moved p occurs, moved q other]

theorem Between.mergeable_of_merged (quiet : Quiet start) (zeroes : free.garbage = false) (merged : Merged state.disk) :
    Mergeable start.disk := by
  rw [between.merged_iff quiet] at merged
  have steps := between.steps
  rw [zeroes] at steps
  intro value last isLast
  refine Xv6Dedup.mergeable_of_merged steps fun q occurs => ?_
  rw [merged value q last occurs isLast.1, isLast.kept steps]

end

/-- One run of `dedup` merges all equal blocks of files exactly when their
occurrences were distributed suitably; memory behind `addrs` can only get in the
way of blocks at the end of an indirect table. -/
theorem dedup_merges_iff (quiet : Quiet start) (completed : dedup (start, memo) = .ok () next) :
    (MemoOk .tidy memo → (Merged next.1.disk ↔ Mergeable start.disk)) ∧
      (MemoOk .full memo → Mergeable start.disk → WithinAddrs start.disk → Merged next.1.disk) := by
  constructor
  · intro allowed
    obtain ⟨image, between⟩ := ((dedup_wp quiet).returned allowed completed).1
    exact ⟨between.mergeable_of_merged quiet rfl, fun mergeable =>
      between.merged_of_mergeable quiet mergeable nofun⟩
  · intro allowed mergeable within
    obtain ⟨image, between⟩ := ((dedup_wp quiet).returned allowed completed).1
    exact between.merged_of_mergeable quiet mergeable fun _ => within

theorem Sample.occurs_mem {sample : Sample} {content : Blocks} (valid : sample.Valid)
    {value : Block} {p : Pointer} (occurs : Occurs (sample.disk content) value p) :
    (p, pointersOf (sample.disk content) p) ∈ sample := by
  rw [pointersOf_disk valid]
  refine (ptr_eq_iff valid ?_).mp rfl
  rw [← pointersOf_disk valid]
  exact occurs.2.1

theorem Sample.occurs_of_mem {sample : Sample} (content : Blocks) (valid : sample.Valid)
    {p : Pointer} {sector : Nat} (member : (p, sector) ∈ sample) :
    pointersOf (sample.disk content) p = sector ∧ Occurs (sample.disk content) (content sector) p := by
  have data : IsData sector := valid.data _ member
  have present : sector ≠ 0 := by
    rintro rfl
    exact absurd data.1 (by decide)
  have points : pointersOf (sample.disk content) p = sector := by
    rw [pointersOf_disk valid]
    exact (ptr_eq_iff valid present).mpr member
  obtain ⟨positive, bounded⟩ := valid.inums _ member
  refine ⟨points, ⟨positive, bounded, ?_⟩, ?_, ?_⟩
  · rw [dinodeOf_disk valid bounded, inode, if_pos]
    exact List.any_eq_true.mpr ⟨_, member, by simp⟩
  · rw [points]
    exact present
  · rw [points, disk, imageOf_content data.1]

theorem memoOk_tidy_empty : MemoOk .tidy {} := ⟨nofun, fun _ => rfl, .inl rfl⟩

/-- The two blocks of the file come to share the second one's sector. -/
theorem dedup_merges_twins : ∃ next, dedup (twins.state zeroes, {}) = .ok () next ∧ Merged next.1.disk := by
  obtain ⟨next, completed⟩ := twins_returns
  refine ⟨next, completed, ((dedup_merges_iff twins_quiet completed).1 memoOk_tidy_empty).mpr ?_⟩
  intro value last isLast
  have listed : ∀ p, Occurs (twins.disk zeroes) value p → (p = (2, 0) ∧ pointersOf (twins.disk zeroes) p = 31) ∨
        (p = (2, 1) ∧ pointersOf (twins.disk zeroes) p = 32) := by
    intro p occurs
    simpa [twins] using Sample.occurs_mem (by decide) occurs
  have inFile : ∀ p, Occurs (twins.disk zeroes) value p → p.1 = 2 := by
    intro p occurs
    rcases listed p occurs with ⟨rfl, _⟩ | ⟨rfl, _⟩ <;> rfl
  have uses : ∀ p, Occurs (twins.disk zeroes) value p →
      FileUses (twins.disk zeroes) value (pointersOf (twins.disk zeroes) last) p := fun p occurs =>
    ⟨last, isLast.1, by rw [inFile last isLast.1, inFile p occurs], rfl⟩
  refine ⟨?_, fun p q occurs _ _ => .inl (uses p occurs), fun p q occurs _ _ _ _ => uses p occurs⟩
  intro p q occurs other later onSector
  change pointersOf (twins.disk zeroes) p = pointersOf (twins.disk zeroes) last at onSector
  have same : p = last := by
    rcases listed p occurs with ⟨rfl, first⟩ | ⟨rfl, first⟩ <;>
      rcases listed last isLast.1 with ⟨rfl, second⟩ | ⟨rfl, second⟩ <;>
        first | rfl | (rw [first, second] at onSector; cases onSector)
  exact absurd (same ▸ later) (isLast.2 q other)

def triplets : Sample := [((2, 0), 31), ((2, 1), 32), ((3, 0), 33)]

/-- With three equal blocks the first one is redirected to the second before the
second is redirected to the third. -/
theorem dedup_leaves_triplets : ∃ next, dedup (triplets.state zeroes, {}) = .ok () next ∧ ¬ Merged next.1.disk := by
  have quiet : Quiet (triplets.state zeroes) := Sample.quiet (by decide) headSectors_zero
  obtain ⟨next, completed⟩ := dedup_returns quiet (Sample.runnable (by decide))
    (Sample.fewSharers (by decide)) memoOk_empty
  obtain ⟨image, between⟩ := ((dedup_wp quiet).returned memoOk_tidy_empty completed).1
  refine ⟨next, completed, fun merged => ?_⟩
  have first := Sample.occurs_of_mem zeroes (by decide) (show ((2, 0), 31) ∈ triplets by decide)
  have second := Sample.occurs_of_mem zeroes (by decide) (show ((2, 1), 32) ∈ triplets by decide)
  have third := Sample.occurs_of_mem zeroes (by decide) (show ((3, 0), 33) ∈ triplets by decide)
  have isLast : LastOccurrence (triplets.disk zeroes) Bytes.zero (3, 0) := by
    refine ⟨third.2, fun q occurs later => ?_⟩
    have listed := Sample.occurs_mem (by decide) occurs
    simp only [triplets, List.mem_cons, Prod.mk.injEq, List.not_mem_nil, or_false] at listed
    rcases listed with ⟨rfl, _⟩ | ⟨rfl, _⟩ | ⟨rfl, _⟩ <;> simp [Before] at later
  have mergeable := between.mergeable_of_merged quiet rfl merged Bytes.zero (3, 0) isLast
  change MergeableOn (triplets.disk zeroes) _ (pointersOf (triplets.disk zeroes) (3, 0)) at mergeable
  rcases mergeable.together (2, 0) (2, 1) first.2 second.2 rfl with ⟨r, occurs, sameFile, same⟩ | same
  · have listed := Sample.occurs_mem (by decide) occurs
    rw [same] at listed
    simp only [triplets, List.mem_cons, Prod.mk.injEq, List.not_mem_nil, or_false] at listed
    rcases listed with ⟨_, wrong⟩ | ⟨_, wrong⟩ | ⟨rfl, _⟩
    · cases wrong
    · cases wrong
    · cases sameFile
  · cases same

end Disk

end Xv6Dedup
