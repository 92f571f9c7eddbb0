import Xv6Dedup.Kernel.Footprint
import Xv6Dedup.Kernel.BlocksProperties

/-!
# Inode cache properties

The inode cache as a map from slots to copies of inodes, and specifications of
`iget`, `ilock`, `iunlock`, `iput` and `iupdate` that keep it right.
-/

set_option autoImplicit false

namespace Xv6Dedup

open Function Program

theorem State.findInode_some {state : State} {inum : Nat} {slot : Slot} (found : state.findInode inum = some slot) :
    0 < (state.icache slot).ref ∧ (state.icache slot).inum = inum := by
  simpa using List.find?_some found

theorem State.findInode_none {state : State} {inum : Nat} (missing : state.findInode inum = none)
    (slot : Slot) (cached : 0 < (state.icache slot).ref) : (state.icache slot).inum ≠ inum := by
  have absent := List.find?_eq_none.mp missing slot (List.mem_finRange slot)
  simpa [cached] using absent

theorem State.emptyInode_some {state : State} {slot : Slot}
    (found : state.emptyInode = some slot) : (state.icache slot).ref = 0 := by
  simpa using List.find?_some found

theorem State.emptyInode_none {state : State} (missing : state.emptyInode = none)
    (slot : Slot) : (state.icache slot).ref ≠ 0 := by
  have absent := List.find?_eq_none.mp missing slot (List.mem_finRange slot)
  simpa using absent

def State.withCache (state : State) (icache : Slot → Inode) : State :=
  { state with icache := icache }

/-- An entry that no other entry in use shares its number with is put in place. -/
theorem distinct_update {icache : Slot → Inode} {slot : Slot} {inode : Inode}
    (distinct : ∀ first second, 0 < (icache first).ref → 0 < (icache second).ref →
      (icache first).inum = (icache second).inum → first = second)
    (apart : 0 < inode.ref → ∀ other, other ≠ slot → 0 < (icache other).ref →
      (icache other).inum ≠ inode.inum) (first second : Slot) (firstUsed : 0 < (update icache slot inode first).ref)
    (secondUsed : 0 < (update icache slot inode second).ref)
    (numbers : (update icache slot inode first).inum = (update icache slot inode second).inum) : first = second := by
  by_cases firstHere : first = slot
  · by_cases secondHere : second = slot
    · exact firstHere.trans secondHere.symm
    · subst firstHere
      rw [update_self] at firstUsed numbers
      rw [update_of_ne secondHere] at secondUsed numbers
      exact absurd numbers.symm (apart firstUsed second secondHere secondUsed)
  · rw [update_of_ne firstHere] at firstUsed numbers
    by_cases secondHere : second = slot
    · subst secondHere
      rw [update_self] at secondUsed numbers
      exact absurd numbers (apart secondUsed first firstHere firstUsed)
    · rw [update_of_ne secondHere] at secondUsed numbers
      exact distinct first second firstUsed secondUsed numbers

/-- The inode cache while `taken` holds references that were not there at the
start and the inodes in `locked` are locked. Valid copies agree with `inodes`. -/
structure Cached (initial : Slot → Inode) (inodes : Nat → Dinode) (taken locked : List Slot)
    (icache : Slot → Inode) : Prop where
  counted : ∀ slot, 0 ≤ (initial slot).ref
  refs : ∀ slot, (icache slot).ref = (initial slot).ref + taken.count slot
  inums : ∀ slot, 0 < (initial slot).ref → (icache slot).inum = (initial slot).inum
  distinct : ∀ first second, 0 < (icache first).ref → 0 < (icache second).ref →
    (icache first).inum = (icache second).inum → first = second
  valid : ∀ slot, 0 < (icache slot).ref → (icache slot).valid = true →
    (icache slot).toDinode = inodes (icache slot).inum
  busy : ∀ slot, 0 < (icache slot).ref → ((icache slot).busy = true ↔ slot ∈ locked)

namespace Cached

variable {initial icache : Slot → Inode} {inodes : Nat → Dinode} {taken locked : List Slot} {slot : Slot}

section

variable (cached : Cached initial inodes taken locked icache)
include cached

theorem apart (used : 0 < (icache slot).ref) {inum : Nat} (same : inum = (icache slot).inum)
    (other : Slot) (different : other ≠ slot) (otherUsed : 0 < (icache other).ref) : (icache other).inum ≠ inum :=
  fun numbers => different (cached.distinct other slot otherUsed used (numbers.trans same))

theorem ref_pos (member : slot ∈ taken) : 0 < (icache slot).ref := by
  have present := List.count_pos_iff.mpr member
  have before := cached.counted slot
  rw [cached.refs slot]
  omega

/-- One entry is replaced; the others keep what is known of them. -/
theorem put {taken' locked' : List Slot} {inodes' : Nat → Dinode} {inode : Inode}
    (refs : inode.ref = (initial slot).ref + taken'.count slot)
    (counts : ∀ other, other ≠ slot → taken'.count other = taken.count other)
    (inums : 0 < (initial slot).ref → inode.inum = (initial slot).inum)
    (apart : 0 < inode.ref → ∀ other, other ≠ slot → 0 < (icache other).ref → (icache other).inum ≠ inode.inum)
    (valid : 0 < inode.ref → inode.valid = true → inode.toDinode = inodes' inode.inum)
    (others : ∀ other, other ≠ slot → 0 < (icache other).ref → (icache other).valid = true →
      inodes' (icache other).inum = inodes (icache other).inum)
    (busy : 0 < inode.ref → (inode.busy = true ↔ slot ∈ locked'))
    (othersBusy : ∀ other, other ≠ slot → (other ∈ locked' ↔ other ∈ locked)) :
    Cached initial inodes' taken' locked' (update icache slot inode) := by
  have forAll {P : Slot → Inode → Prop} (here : P slot inode)
      (there : ∀ other, other ≠ slot → P other (icache other)) (other : Slot) :
      P other (update icache slot inode other) :=
    (Function.forall_update_iff icache P).mpr ⟨here, there⟩ other
  refine ⟨cached.counted, ?_, ?_, distinct_update cached.distinct apart, ?_, ?_⟩
  · refine forAll (P := fun other copy => copy.ref = _) refs fun other different => ?_
    rw [counts other different]
    exact cached.refs other
  · exact forAll (P := fun other copy => _ → copy.inum = _) inums fun other _ => cached.inums other
  · refine forAll (P := fun _ copy => 0 < copy.ref → copy.valid = true → copy.toDinode =
      inodes' copy.inum) valid fun other different used loaded => ?_
    rw [others other different used loaded]
    exact cached.valid other used loaded
  · refine forAll (P := fun other copy => 0 < copy.ref → (copy.busy = true ↔ _)) busy fun other different used => ?_
    rw [othersBusy other different]
    exact cached.busy other used

theorem again (used : 0 < (icache slot).ref) : Cached initial inodes (slot :: taken) locked
      (update icache slot { icache slot with ref := (icache slot).ref + 1 }) := by
  refine cached.put ?_ (fun other different => List.count_cons_of_ne (Ne.symm different))
    (cached.inums slot) (fun _ => cached.apart used rfl) (fun _ => cached.valid slot used)
    (fun _ _ _ _ => rfl) (fun _ => cached.busy slot used) fun _ _ => Iff.rfl
  have before := cached.refs slot
  rw [List.count_cons_self]
  simp only
  omega

theorem recycle (empty : (icache slot).ref = 0) {inum : Nat}
    (missing : ∀ other, 0 < (icache other).ref → (icache other).inum ≠ inum) (unlocked : slot ∉ locked) :
    Cached initial inodes (slot :: taken) locked (update icache slot
      { icache slot with inum := inum, ref := 1, busy := false, valid := false }) := by
  have before := cached.refs slot
  refine cached.put ?_ (fun other different => List.count_cons_of_ne (Ne.symm different))
    (fun held => ?_) (fun _ other _ => missing other) nofun (fun _ _ _ _ => rfl)
    (fun _ => by simp [unlocked]) fun _ _ => Iff.rfl
  · rw [List.count_cons_self]
    simp only
    omega
  · omega

theorem modify {locked' : List Slot} {inodes' : Nat → Dinode} {inode : Inode}
    (sameRef : inode.ref = (icache slot).ref) (sameInum : inode.inum = (icache slot).inum)
    (valid : inode.valid = true → inode.toDinode = inodes' inode.inum)
    (others : ∀ other, other ≠ slot → 0 < (icache other).ref → (icache other).valid = true → inodes' (icache other).inum = inodes (icache other).inum)
    (busy : inode.busy = true ↔ slot ∈ locked')
    (othersBusy : ∀ other, other ≠ slot → (other ∈ locked' ↔ other ∈ locked)) :
    Cached initial inodes' taken locked' (update icache slot inode) :=
  cached.put (sameRef.trans (cached.refs slot)) (fun _ _ => rfl) (fun held => sameInum.trans (cached.inums slot held))
    (fun used => cached.apart (sameRef ▸ used) sameInum) (fun _ => valid) others (fun _ => busy)
    othersBusy

end

theorem forget (cached : Cached initial inodes (slot :: taken) locked icache) : Cached initial inodes taken locked
      (update icache slot { icache slot with ref := (icache slot).ref - 1 }) := by
  have still (left : 0 < (icache slot).ref - 1) : 0 < (icache slot).ref := by omega
  refine cached.put ?_ (fun other different => (List.count_cons_of_ne (Ne.symm different)).symm)
    (cached.inums slot) (fun left => cached.apart (still left) rfl)
    (fun left => cached.valid slot (still left)) (fun _ _ _ _ => rfl)
    (fun left => cached.busy slot (still left)) fun _ _ => Iff.rfl
  have before := cached.refs slot
  rw [List.count_cons_self] at before
  simp only
  omega

end Cached

/-! ## Operations on the cache -/

section Specifications

variable {free : Freedom} {state : State} {Stops : Stop → State → Prop}
  {initial : Slot → Inode} {inodes : Nat → Dinode} {taken locked : List Slot} {slot : Slot}
  {inum : Nat}

theorem iget_wp {Post : Slot → State → Prop}
    (cached : Cached initial inodes taken locked state.icache) (held : locked ⊆ taken)
    (unlocked : ∀ other ∈ locked, (state.icache other).inum ≠ inum)
    (full : (∀ other, (state.icache other).ref ≠ 0) → Stops (.panic "iget: no inodes") state)
    (next : ∀ slot icache, Cached initial inodes (slot :: taken) locked icache →
      slot ∉ locked → (icache slot).inum = inum → (∀ other ∈ locked, icache other = state.icache other) →
      ((state.icache slot).ref = 0 → (icache slot).valid = false) → Post slot (state.withCache icache)) :
    FsWp free (iget inum) state Post Stops := by
  refine Wp.see ?_
  cases found : state.findInode inum with
  | some slot =>
    obtain ⟨used, number⟩ := State.findInode_some found
    have apart : slot ∉ locked := fun member => unlocked slot member number
    refine Wp.set (Wp.pure (next slot _ (cached.again used) apart ?_ ?_ ?_))
    · rw [update_self]
      exact number
    · intro other member
      rw [update_of_ne]
      rintro rfl
      exact apart member
    · omega
  | none =>
    cases empty : state.emptyInode with
    | none => exact Wp.throw (full (State.emptyInode_none empty))
    | some slot =>
      have unused := State.emptyInode_some empty
      have apart : slot ∉ locked := by
        intro member
        have used := cached.ref_pos (held member)
        omega
      refine Wp.set (Wp.pure (next slot _ (cached.recycle unused (State.findInode_none found) apart) apart ?_ ?_ ?_))
      · rw [update_self]
      · intro other member
        rw [update_of_ne]
        rintro rfl
        exact apart member
      · intro _
        rw [update_self]

variable {Post : Unit → State → Prop}

theorem ilock_wp (cached : Cached initial inodes taken locked state.icache)
    (member : slot ∈ taken) (unlocked : slot ∉ locked) (number : (state.icache slot).inum = inum)
    (steady : Steady free state) (idle : (state.buf (IBLOCK inum)).busy = false)
    (current : dinodeOf state.data inum = inodes inum) (typed : (inodes inum).type ≠ 0)
    (next : ∀ icache, Cached initial inodes taken (slot :: locked) icache → (icache slot).toDinode = inodes inum → (icache slot).inum = inum → (∀ other, other ≠ slot → icache other = state.icache other) → Post () (state.withCache icache)) :
    FsWp free (ilock slot) state Post Stops := by
  have used := cached.ref_pos member
  have notBusy : (state.icache slot).busy = false := by
    rw [← Bool.not_eq_true, cached.busy slot used]
    exact unlocked
  have othersBusy : ∀ other, other ≠ slot → (other ∈ slot :: locked ↔ other ∈ locked) := by
    intro other different
    simp [different]
  refine Wp.peek ?_
  refine Wp.ite (fun unreferenced => absurd used (by omega)) (fun _ => ?_)
  rw [if_neg (by simp [notBusy])]
  refine Wp.set ?_
  refine Wp.ite (fun loaded => ?_) (fun unloaded => ?_)
  · have agrees := cached.valid slot used loaded
    refine Wp.pure (next _ (cached.modify rfl rfl ?_ (fun _ _ _ _ => rfl) (by simp) othersBusy) ?_ ?_ ?_)
    · intro _
      exact agrees
    · rw [update_self, ← number]
      exact agrees
    · rw [update_self]
      exact number
    · intro other different
      rw [update_of_ne different]
  · rw [number]
    refine read_wp (by exact steady) (by exact idle) ?_
    refine Wp.bind (brelse_hold_wp idle ?_)
    refine Wp.set ?_
    have loaded : dinodeAt (state.data (IBLOCK inum)) (inum % IPB) = inodes inum := current
    change FsWp free (if (dinodeAt (state.data (IBLOCK inum)) (inum % IPB)).type = 0 then
      kernelPanic "ilock: no type" else pure ()) _ Post Stops
    rw [loaded, if_neg typed]
    have after := next (Function.update state.icache slot { state.icache slot with
      toDinode := inodes inum, busy := true, valid := true })
      (cached.modify rfl rfl (fun _ => by rw [number]) (fun _ _ _ _ => rfl) (by simp) othersBusy)
      (by rw [update_self]) (by rw [update_self]; exact number)
      (fun other different => by rw [update_of_ne different])
    refine Wp.pure ?_
    convert after using 1
    simp only [State.withCache, State.setInode]
    congr 1
    rw [update_idem]
    rw [← loaded, number]
    rfl

theorem ilock_free_wp (cached : Cached initial inodes taken locked state.icache)
    (member : slot ∈ taken) (number : (state.icache slot).inum = inum)
    (unread : (state.icache slot).valid = false) (steady : Steady free state)
    (idle : (state.buf (IBLOCK inum)).busy = false)
    (untyped : (dinodeOf state.data inum).type = 0) (stops : ∀ reason after, Stops reason after) :
    FsWp free (ilock slot) state (fun _ _ => False) Stops := by
  refine Wp.peek ?_
  refine Wp.ite (fun _ => Wp.throw (stops _ _)) (fun _ => ?_)
  refine Wp.ite (fun _ => Wp.throw (stops _ _)) (fun _ => Wp.set ?_)
  rw [if_neg (by simp [unread]), number]
  refine read_wp (by exact steady) (by exact idle) ?_
  refine Wp.bind (brelse_hold_wp idle ?_)
  refine Wp.set ?_
  change FsWp free (if (dinodeOf state.data inum).type = 0 then kernelPanic "ilock: no type"
    else pure ()) _ _ Stops
  rw [if_pos untyped]
  exact Wp.throw (stops _ _)

theorem iunlockput_wp (cached : Cached initial inodes (slot :: taken) (slot :: locked) state.icache)
    (once : slot ∉ locked)
    (orphan : (state.icache slot).ref = 1 → (state.icache slot).nlink = 0 → FsWp free (iputFree slot) (state.setInode slot { state.icache slot with busy := false }) (fun _ _ => False) Stops)
    (next : ∀ icache, Cached initial inodes taken locked icache → (∀ other, other ≠ slot → icache other = state.icache other) → Post () (state.withCache icache)) :
    FsWp free (iunlockput slot) state Post Stops := by
  have used := cached.ref_pos List.mem_cons_self
  have busy : (state.icache slot).busy = true :=
    (cached.busy slot used).mpr List.mem_cons_self
  have unlocked : Cached initial inodes (slot :: taken) locked
      (Function.update state.icache slot { state.icache slot with busy := false }) :=
    cached.modify rfl rfl (cached.valid slot used) (fun _ _ _ _ => rfl) (by simp [once])
      (fun other different => by simp [different])
  refine Wp.bind (Wp.peek ?_)
  rw [if_neg (by simp [busy]; omega)]
  refine Wp.change ?_
  refine Wp.peek ?_
  have after := next _ unlocked.forget fun other different => by
    rw [update_of_ne different, update_of_ne different]
  refine Wp.bind (Wp.onlyIf (fun last => ?_) (fun _ => Wp.change after))
  simp only [State.setInode, update_self] at last
  exact (orphan last.1 last.2.2).post fun _ _ impossible => impossible.elim

theorem iupdate_wp (number : (state.icache slot).inum = inum) (steady : Steady free state)
    (idle : (state.buf (IBLOCK inum)).busy = false) (busy : state.log.busy = true)
    (slotIdle : state.LogRoom → (state.buf (state.logSlot (IBLOCK inum))).busy = false)
    (apart : state.LogRoom → state.logSlot (IBLOCK inum) ≠ IBLOCK inum)
    (full : ¬ state.LogRoom → Stops (.panic "too big a transaction") ((state.hold (IBLOCK inum)).fill (IBLOCK inum) (putDinode (state.data (IBLOCK inum)) (inum % IPB) (state.icache slot).toDinode)))
    (next : state.LogRoom → Post () (state.logSet (IBLOCK inum) (putDinode (state.data (IBLOCK inum)) (inum % IPB) (state.icache slot).toDinode))) :
    FsWp free (iupdate slot) state Post Stops := by
  refine Wp.peek ?_
  rw [number]
  exact read_wp steady idle (log_block_wp steady busy slotIdle apart full next)

end Specifications

end Xv6Dedup
