import Xv6Dedup.Kernel.Blocks
import Xv6Dedup.Kernel.Layout

/-!
# Reference counts under concurrency

`deletedups` in one process against `itrunc` and `writei` in the transactions of
another. Each of them reads a reference byte with `getBlkRef`, decides whether
to lower it or to free the sector, and acts in a later step. Each `getBlkRef`
and each `updateBlkRef` is one step; the pointers, the reference bytes and the
bitmap are shared.
-/

set_option autoImplicit false

namespace Xv6Dedup.Counting

open Function Sharing

/-- Where a call of `deletedups` is. It redirects `slot` to the sector of
`candidate` and has their two inodes locked. -/
inductive DedupPhase where
  | idle
  /-- The pointer has been overwritten. -/
  | redirected (slot candidate : Pointer) (old new : Nat)
  /-- `updateBlkRef(b2->sector, 1)` is done. -/
  | raised (slot candidate : Pointer) (old : Nat)
  /-- `ref = getBlkRef(b1->sector)` is done. -/
  | decided (slot candidate : Pointer) (old ref : Nat)
  deriving DecidableEq, Repr

def DedupPhase.locks : DedupPhase → List Nat
  | .idle => []
  | .redirected slot candidate _ _ | .raised slot candidate _ | .decided slot candidate _ _ =>
    [slot.1, candidate.1]

/-- Where a transaction of the other process is; it has one inode locked. -/
inductive CallPhase where
  | idle
  | working (inum : Nat)
  /-- `itrunc` has read the count of a block. -/
  | dropping (inum index ref : Nat)
  /-- `writei` has read the count of a block. -/
  | writing (inum index ref : Nat)
  /-- `writei` has lowered the count of the block it is about to copy. -/
  | copying (inum index old : Nat)
  deriving DecidableEq, Repr

def CallPhase.inode : CallPhase → Option Nat
  | .idle => none
  | .working inum | .dropping inum _ _ | .writing inum _ _ | .copying inum _ _ => some inum

structure Accounts extends Shares Pointer Nat 8 where
  /-- The indirect table of each inode. -/
  table : Nat → Nat := fun _ => 0
  dedup : DedupPhase := .idle
  call : CallPhase := .idle

inductive Act where
  /-- `ip1->addrs[b1Index] = ip2->addrs[b2Index]`, or the same in a table. -/
  | redirect (slot candidate : Pointer)
  | raise
  | readOld
  /-- `updateBlkRef(b1->sector, -1)`, or `bfree` in a transaction. -/
  | giveUp
  /-- `begin_trans` and `ilock`. -/
  | begin (inum : Nat)
  /-- `iunlock` and `commit_trans`. -/
  | commit
  /-- `itrunc` calls `getBlkRef`. -/
  | readDrop (index : Nat)
  /-- `itrunc` lowers the count or frees the block. -/
  | drop
  /-- `itrunc` frees the table, whose entries have all been dropped. -/
  | freeTable
  /-- `bmap` allocates a block. -/
  | map (index b : Nat)
  | mapTable (b : Nat)
  /-- `writei` calls `getBlkRef`. -/
  | readWrite (index : Nat)
  /-- `writei` lowers the count of a shared block. -/
  | lower
  /-- `writei` allocates its copy, and `replaceBlk`. -/
  | copy (b : Nat)
  deriving DecidableEq, Repr

/-- What `balloc` may return: a sector that is free and has a reference byte. -/
def Accounts.Free (accounts : Accounts) (b : Nat) : Prop :=
  b ≠ 0 ∧ b < 2 * BSIZE ∧ accounts.used b = false

instance (accounts : Accounts) (b : Nat) : Decidable (accounts.Free b) :=
  inferInstanceAs (Decidable (_ ∧ _ ∧ _))

def Accounts.bump (accounts : Accounts) (sector : Nat) (flag : Int) : Accounts :=
  { accounts with ref := update accounts.ref sector (bumpRef flag (accounts.ref sector)) }

def Accounts.mark (accounts : Accounts) (sector : Nat) (used : Bool) : Accounts :=
  { accounts with used := update accounts.used sector used }

def Accounts.point (accounts : Accounts) (slot : Pointer) (sector : Nat) : Accounts :=
  { accounts with ptr := update accounts.ptr slot sector }

/-- Lower a sector's count or free it, as decided by the count read before. -/
def Accounts.release (accounts : Accounts) (sector ref : Nat) : Accounts :=
  if 0 < ref then accounts.bump sector (-1) else accounts.mark sector false

def IsSlot (slot : Pointer) : Prop := (1 ≤ slot.1 ∧ slot.1 < NINODES) ∧ slot.2 < MAXFILE

instance (slot : Pointer) : Decidable (IsSlot slot) := inferInstanceAs (Decidable ((_ ∧ _) ∧ _))

/-- A step; `none` when it is not the process's next step or it has to wait. -/
def Accounts.act (accounts : Accounts) : Act → Option Accounts
  | .redirect slot candidate =>
    if accounts.dedup = .idle ∧ IsSlot slot ∧ IsSlot candidate ∧ accounts.ptr slot ≠ 0 ∧
        accounts.ptr candidate ≠ 0 ∧ accounts.ptr slot ≠ accounts.ptr candidate ∧
        accounts.call.inode ≠ some slot.1 ∧ accounts.call.inode ≠ some candidate.1 then
      some { accounts.point slot (accounts.ptr candidate) with
        dedup := .redirected slot candidate (accounts.ptr slot) (accounts.ptr candidate) }
    else none
  | .raise =>
    match accounts.dedup with
    | .redirected slot candidate old new =>
      some { accounts.bump new 1 with dedup := .raised slot candidate old }
    | _ => none
  | .readOld =>
    match accounts.dedup with
    | .raised slot candidate old =>
      some { accounts with dedup := .decided slot candidate old (accounts.ref old).toNat }
    | _ => none
  | .giveUp =>
    match accounts.dedup with
    | .decided _ _ old ref =>
      -- freeing needs a transaction of its own
      if 0 < ref ∨ accounts.call = .idle then
        some { accounts.release old ref with dedup := .idle }
      else none
    | _ => none
  | .begin inum =>
    if accounts.call = .idle ∧ 1 ≤ inum ∧ inum < NINODES ∧ inum ∉ accounts.dedup.locks then
      some { accounts with call := .working inum }
    else none
  | .commit =>
    match accounts.call with
    | .working _ => some { accounts with call := .idle }
    | _ => none
  | .readDrop index =>
    match accounts.call with
    | .working inum =>
      if index < MAXFILE ∧ accounts.ptr (inum, index) ≠ 0 then
        some { accounts with
          call := .dropping inum index (accounts.ref (accounts.ptr (inum, index))).toNat }
      else none
    | _ => none
  | .drop =>
    match accounts.call with
    | .dropping inum index ref =>
      some { (accounts.release (accounts.ptr (inum, index)) ref).point (inum, index) 0 with
        call := .working inum }
    | _ => none
  | .freeTable =>
    match accounts.call with
    | .working inum =>
      if accounts.table inum ≠ 0 ∧ ∀ entry < NINDIRECT, accounts.ptr (inum, NDIRECT + entry) = 0 then
        some { accounts.mark (accounts.table inum) false with
          table := update accounts.table inum 0 }
      else none
    | _ => none
  | .map index b =>
    match accounts.call with
    | .working inum =>
      if index < MAXFILE ∧ (NDIRECT ≤ index → accounts.table inum ≠ 0) ∧
          accounts.ptr (inum, index) = 0 ∧ accounts.Free b then
        some ((accounts.mark b true).point (inum, index) b)
      else none
    | _ => none
  | .mapTable b =>
    match accounts.call with
    | .working inum =>
      if accounts.table inum = 0 ∧ accounts.Free b then
        some { accounts.mark b true with table := update accounts.table inum b }
      else none
    | _ => none
  | .readWrite index =>
    match accounts.call with
    | .working inum =>
      if index < MAXFILE ∧ accounts.ptr (inum, index) ≠ 0 then
        some { accounts with
          call := .writing inum index (accounts.ref (accounts.ptr (inum, index))).toNat }
      else none
    | _ => none
  | .lower =>
    match accounts.call with
    | .writing inum index ref =>
      if 0 < ref then
        some { accounts.bump (accounts.ptr (inum, index)) (-1) with
          call := .copying inum index (accounts.ptr (inum, index)) }
      else some { accounts with call := .working inum }
    | _ => none
  | .copy b =>
    match accounts.call with
    | .copying inum _ old =>
      if accounts.Free b then
        some { accounts.mark b true with
          ptr := fun slot =>
            if slot.1 = inum ∧ accounts.ptr slot = old then b else accounts.ptr slot
          call := .working inum }
      else none
    | _ => none

def Step (accounts next : Accounts) : Prop := ∃ act, accounts.act act = some next

/-! ## Steps that do not race -/

/-- The sector whose count a process has read without having acted on it. -/
def DedupPhase.read : DedupPhase → Option Nat
  | .decided _ _ old _ => some old
  | _ => none

def CallPhase.read (ptr : Pointer → Nat) : CallPhase → Option Nat
  | .dropping inum index _ | .writing inum index _ => some (ptr (inum, index))
  | _ => none

/-- No count that both processes have read is lowered to zero, a count is raised
only below its maximum, and a block is copied only for its one pointer in the
file. -/
def Careful (accounts : Accounts) : Act → Prop
  | .raise =>
    match accounts.dedup with
    | .redirected _ _ _ new => accounts.ref new ≠ 255
    | _ => True
  | .giveUp | .drop | .lower =>
    ∀ sector, accounts.dedup.read = some sector →
      accounts.call.read accounts.ptr = some sector → 1 < (accounts.ref sector).toNat
  | .copy _ =>
    match accounts.call with
    | .copying inum index old =>
      ∀ other < MAXFILE, accounts.ptr (inum, other) = old → other = index
    | _ => True
  | _ => True

def CarefulStep (accounts next : Accounts) : Prop :=
  ∃ act, Careful accounts act ∧ accounts.act act = some next

/-- The sectors that have an owner besides the pointers. -/
def Owned (reserved : Nat → Prop) (table : Nat → Nat) (sector : Nat) : Prop :=
  reserved sector ∨ sector ≠ 0 ∧ ∃ inum, table inum = sector

/-- Reference bytes and bitmap agree with the pointers. -/
def Right (reserved : Nat → Prop) (accounts : Accounts) : Prop :=
  accounts.toShares.Accounted pointers (· ≠ 0) (Owned reserved accounts.table)

/-- Both processes are about to start and everything is accounted for. -/
structure Ready (reserved : Nat → Prop) (accounts : Accounts) : Prop where
  right : Right reserved accounts
  unowned : ∀ slot ∈ pointers, accounts.ptr slot ≠ 0 → ¬ Owned reserved accounts.table (accounts.ptr slot)
  tables : ∀ first second, accounts.table first ≠ 0 → accounts.table first = accounts.table second → first = second
  unreserved : ∀ inum, accounts.table inum ≠ 0 → ¬ reserved (accounts.table inum)
  dedup : accounts.dedup = .idle
  call : accounts.call = .idle

/-! ## The balance of the counts -/

/-- What `deletedups` has still to add to a count, and to take from one. -/
def owedRaise : DedupPhase → Nat → Nat
  | .redirected _ _ _ new, sector => if sector = new then 1 else 0
  | _, _ => 0

def owedDrop : DedupPhase → Nat → Nat
  | .idle, _ => 0
  | .redirected _ _ old _, sector | .raised _ _ old, sector | .decided _ _ old _, sector =>
    if sector = old then 1 else 0

/-- The pointer whose use of a sector `writei` has already given up. -/
def owedCopy : CallPhase → Nat → Nat
  | .copying _ _ old, sector => if sector = old then 1 else 0
  | _, _ => 0

/-- What `deletedups` knows in each phase; `busy` is the inode of the other
process. -/
def DedupOk (owned : Nat → Prop) (busy : Option Nat) (ptr : Pointer → Nat) (ref : Nat → Byte) : DedupPhase → Prop
  | .idle => True
  | .redirected slot candidate old new =>
    (IsSlot slot ∧ IsSlot candidate ∧ slot ≠ candidate) ∧
      (ptr slot = new ∧ ptr candidate = new) ∧ (old ≠ 0 ∧ new ≠ 0 ∧ old ≠ new) ∧ ¬ owned old ∧
      busy ≠ some slot.1 ∧ busy ≠ some candidate.1
  | .raised _ _ old => old ≠ 0 ∧ ¬ owned old
  | .decided _ _ old read => old ≠ 0 ∧ ¬ owned old ∧ (read = 0 ↔ ref old = 0)

def CallOk (ptr : Pointer → Nat) (ref : Nat → Byte) (count : Nat → Nat) : CallPhase → Prop
  | .idle => True
  | .working inum => 1 ≤ inum ∧ inum < NINODES
  | .dropping inum index read | .writing inum index read =>
    IsSlot (inum, index) ∧ ptr (inum, index) ≠ 0 ∧ (read = 0 ↔ ref (ptr (inum, index)) = 0)
  | .copying inum index old =>
    IsSlot (inum, index) ∧ ptr (inum, index) = old ∧ old ≠ 0 ∧ 0 < count old

/-- The counters are right for `count`, which differs from the number of
pointers by what the processes owe. -/
structure Balanced (reserved : Nat → Prop) (accounts : Accounts) (count : Nat → Nat) : Prop where
  counts : Counts (· ≠ 0) (Owned reserved accounts.table) count accounts.toCounters
  balance : ∀ sector ≠ 0, count sector + owedRaise accounts.dedup sector + owedCopy accounts.call sector =
      users pointers accounts.ptr sector + owedDrop accounts.dedup sector
  unowned : ∀ slot ∈ pointers, accounts.ptr slot ≠ 0 → ¬ Owned reserved accounts.table (accounts.ptr slot)
  tables : ∀ first second, accounts.table first ≠ 0 → accounts.table first = accounts.table second → first = second
  unreserved : ∀ inum, accounts.table inum ≠ 0 → ¬ reserved (accounts.table inum)
  dedupOk : DedupOk (Owned reserved accounts.table) accounts.call.inode accounts.ptr accounts.ref accounts.dedup
  callOk : CallOk accounts.ptr accounts.ref count accounts.call

theorem mem_pointers_of_isSlot {slot : Pointer} (isSlot : IsSlot slot) : slot ∈ pointers :=
  mem_pointers.mpr isSlot

variable {reserved : Nat → Prop} {accounts : Accounts}

theorem Ready.balanced (ready : Ready reserved accounts) : Balanced reserved accounts (users pointers accounts.ptr) :=
  { ready with
    counts := ready.right
    balance := fun _ _ => by rw [ready.dedup, ready.call]; rfl
    dedupOk := by rw [ready.dedup]; trivial
    callOk := by rw [ready.call]; trivial }

theorem Balanced.right {count : Nat → Nat} (balanced : Balanced reserved accounts count)
    (dedup : accounts.dedup = .idle) (call : accounts.call = .idle) : Right reserved accounts := by
  have same : ∀ sector ≠ 0, count sector = users pointers accounts.ptr sector := by
    intro sector present
    have owed := balanced.balance sector present
    rw [dedup, call] at owed
    exact owed
  refine ⟨fun sector present => ?_, fun sector present => ?_⟩
  · rw [balanced.counts.ref sector present, same sector present]
  · rw [balanced.counts.used sector present, same sector present]

variable {dedup : DedupPhase} {call : CallPhase}

section Owing

variable {count : Nat → Nat} {sector : Nat}

theorem card_le_users {slots : Finset Pointer} (inside : ∀ slot ∈ slots, IsSlot slot ∧ accounts.ptr slot = sector) :
    slots.card ≤ users pointers accounts.ptr sector :=
  Finset.card_le_card fun slot member => Finset.mem_filter.mpr
    ⟨mem_pointers_of_isSlot (inside slot member).1, (inside slot member).2⟩

variable (balanced : Balanced reserved accounts count)
include balanced

theorem Balanced.dedupIn (phase : accounts.dedup = dedup) :
    DedupOk (Owned reserved accounts.table) accounts.call.inode accounts.ptr accounts.ref dedup :=
  phase ▸ balanced.dedupOk

theorem Balanced.callIn (phase : accounts.call = call) : CallOk accounts.ptr accounts.ref count call :=
  phase ▸ balanced.callOk

/-- The two pointers that `deletedups` has locked are not in the inode of the transaction. -/
theorem Balanced.users_ge {locked : Finset Pointer} (inside : ∀ slot ∈ locked, IsSlot slot ∧ accounts.ptr slot = sector)
    (busy : ∀ slot ∈ locked, accounts.call.inode = some slot.1) :
    locked.card + 2 * owedRaise accounts.dedup sector ≤ users pointers accounts.ptr sector := by
  cases phase : accounts.dedup with
  | redirected first second old new =>
    obtain ⟨⟨firstSlot, secondSlot, different⟩, ⟨firstPoints, secondPoints⟩, _, _, apart, apart'⟩ :=
      balanced.dedupIn phase
    by_cases isNew : sector = new
    · have disjoint : Disjoint locked {first, second} := by
        refine Finset.disjoint_right.mpr fun slot member held => ?_
        rcases Finset.mem_insert.mp member with rfl | last
        · exact apart (busy slot held)
        · rw [Finset.mem_singleton.mp last] at held
          exact apart' (busy second held)
      rw [owedRaise, if_pos isNew, Nat.mul_one, ← Finset.card_pair different, ← Finset.card_union_of_disjoint disjoint]
      refine card_le_users fun slot member => ?_
      simp only [Finset.mem_union, Finset.mem_insert, Finset.mem_singleton] at member
      rcases member with held | rfl | rfl
      · exact inside slot held
      · exact ⟨firstSlot, firstPoints.trans isNew.symm⟩
      · exact ⟨secondSlot, secondPoints.trans isNew.symm⟩
    · rw [owedRaise, if_neg isNew]
      exact card_le_users inside
  | idle | raised | decided => exact card_le_users inside

theorem Balanced.owed_le (sector : Nat) : owedCopy accounts.call sector + 2 * owedRaise accounts.dedup sector ≤
      users pointers accounts.ptr sector := by
  have plain := balanced.users_ge (by simp : ∀ slot ∈ (∅ : Finset Pointer), IsSlot slot ∧
    accounts.ptr slot = sector) (by simp)
  cases phase : accounts.call with
  | copying inum index old =>
    obtain ⟨isSlot, points, _⟩ := balanced.callIn phase
    by_cases isOld : sector = old
    · rw [owedCopy, if_pos isOld, ← Finset.card_singleton (inum, index)]
      refine balanced.users_ge ?_ ?_
      · simp [isSlot, points, isOld]
      · simp [phase, CallPhase.inode]
    · simpa [owedCopy, isOld] using plain
  | idle | working | dropping | writing => simpa [owedCopy] using plain

theorem Balanced.count_ge (present : sector ≠ 0) :
    owedRaise accounts.dedup sector + owedDrop accounts.dedup sector ≤ count sector := by
  have owed := balanced.balance sector present
  have least := balanced.owed_le sector
  omega

theorem Balanced.free_unused {b : Nat} (free : accounts.Free b) : count b = 0 ∧ ¬ Owned reserved accounts.table b := by
  have flag := balanced.counts.used b free.1
  rw [free.2.2] at flag
  have none : ¬ (0 < count b ∨ Owned reserved accounts.table b) := fun some =>
    Bool.false_ne_true (flag.mpr some)
  exact ⟨by omega, fun owned => none (.inr owned)⟩

theorem Balanced.free_users {b : Nat} (free : accounts.Free b) :
    users pointers accounts.ptr b = 0 ∧ owedRaise accounts.dedup b = 0 ∧ owedDrop accounts.dedup b = 0 ∧
        owedCopy accounts.call b = 0 := by
  have none := (balanced.free_unused free).1
  have owed := balanced.balance b free.1
  have least := balanced.owed_le b
  have uncopied : owedCopy accounts.call b = 0 := by
    cases phase : accounts.call with
    | idle | working | dropping | writing => rfl
    | copying inum index old =>
      refine if_neg ?_
      rintro rfl
      have kept := (balanced.callIn phase).2.2.2
      omega
  omega

/-- A block of the transaction's inode has a user besides the pointer that
`deletedups` still has to count. -/
theorem Balanced.shared_of_read (reads : accounts.call.read accounts.ptr = some sector) :
    sector ≠ 0 ∧ 0 < count sector ∧ ¬ Owned reserved accounts.table sector ∧ 1 + owedRaise accounts.dedup sector +
        owedDrop accounts.dedup sector ≤ count sector := by
  cases phase : accounts.call with
  | idle | working | copying =>
    rw [phase] at reads
    cases reads
  | dropping inum index read | writing inum index read =>
    rw [phase] at reads
    cases reads
    obtain ⟨isSlot, present, _⟩ := balanced.callIn phase
    have owed := balanced.balance _ present
    have least := balanced.users_ge (by simp [isSlot] : ∀ slot ∈ ({(inum, index)} : Finset Pointer),
      IsSlot slot ∧ accounts.ptr slot = accounts.ptr (inum, index)) (by simp [phase, CallPhase.inode])
    rw [Finset.card_singleton] at least
    rw [phase] at owed
    simp only [owedCopy] at owed
    refine ⟨present, by omega, ?_, by omega⟩
    exact balanced.unowned _ (mem_pointers_of_isSlot isSlot) present

theorem Balanced.unowned_point {target : Nat} (slot : Pointer)
    (fresh : target ≠ 0 → ¬ Owned reserved accounts.table target) :
    ∀ other ∈ pointers, update accounts.ptr slot target other ≠ 0 →
      ¬ Owned reserved accounts.table (update accounts.ptr slot target other) := by
  intro other member
  by_cases same : other = slot
  · rwa [same, update_self]
  · rw [update_of_ne same]
    exact balanced.unowned other member

end Owing

variable {ptr : Pointer → Nat}

section Phases

variable {count : Nat → Nat}

theorem CallOk.congr {ptr' : Pointer → Nat} {ref ref' : Nat → Byte} {count' : Nat → Nat}
    (callOk : CallOk ptr ref count call) (points : ∀ slot : Pointer, call.inode = some slot.1 → ptr' slot = ptr slot)
    (decided : ∀ sector, call.read ptr = some sector → (ref' sector = 0 ↔ ref sector = 0))
    (kept : ∀ inum index old, call = .copying inum index old → 0 < count old → 0 < count' old) :
    CallOk ptr' ref' count' call := by
  cases call with
  | idle | working => exact callOk
  | dropping inum index read | writing inum index read =>
    rw [CallOk, points (inum, index) rfl]
    exact ⟨callOk.1, callOk.2.1, callOk.2.2.trans (decided _ rfl).symm⟩
  | copying inum index old =>
    rw [CallOk, points (inum, index) rfl]
    exact ⟨callOk.1, callOk.2.1, callOk.2.2.1, kept inum index old rfl callOk.2.2.2⟩

theorem DedupOk.congr {owned owned' : Nat → Prop} {busy busy' : Option Nat} {ptr' : Pointer → Nat}
    {ref ref' : Nat → Byte} (dedupOk : DedupOk owned busy ptr ref dedup)
    (slots : ∀ slot : Pointer, busy ≠ some slot.1 → ptr' slot = ptr slot)
    (free : ∀ inum ∈ dedup.locks, busy ≠ some inum → busy' ≠ some inum)
    (read : ∀ old, dedup.read = some old → (ref' old = 0 ↔ ref old = 0))
    (unowned : ∀ old, owedDrop dedup old = 1 → ¬ owned old → ¬ owned' old) : DedupOk owned' busy' ptr' ref' dedup := by
  cases dedup with
  | idle => trivial
  | redirected slot candidate old new =>
    obtain ⟨slotsOk, ⟨slotPoints, candidatePoints⟩, sectors, notOwned, apart, apart'⟩ := dedupOk
    refine ⟨slotsOk, ⟨?_, ?_⟩, sectors, unowned old (if_pos rfl) notOwned, ?_, ?_⟩
    · rw [slots slot apart]
      exact slotPoints
    · rw [slots candidate apart']
      exact candidatePoints
    · exact free slot.1 (by simp [DedupPhase.locks]) apart
    · exact free candidate.1 (by simp [DedupPhase.locks]) apart'
  | raised slot candidate old => exact ⟨dedupOk.1, unowned old (if_pos rfl) dedupOk.2⟩
  | decided slot candidate old value =>
    exact ⟨dedupOk.1, unowned old (if_pos rfl) dedupOk.2.1, dedupOk.2.2.trans (read old rfl).symm⟩

theorem DedupOk.unowned {owned : Nat → Prop} {busy : Option Nat} {ref : Nat → Byte} {old : Nat}
    (dedupOk : DedupOk owned busy ptr ref dedup) (owed : owned old) : owedDrop dedup old = 0 := by
  have other (first : Nat) (unowned : ¬ owned first) : (if old = first then 1 else 0) = 0 := by
    refine if_neg ?_
    rintro rfl
    exact unowned owed
  cases dedup with
  | idle => rfl
  | redirected slot candidate first new => exact other first dedupOk.2.2.2.1
  | raised slot candidate first => exact other first dedupOk.2
  | decided slot candidate first read => exact other first dedupOk.2.1

theorem update_shift (count : Nat → Nat) {s value less more : Nat} (shift : value + less = count s + more)
    (sector : Nat) : update count s value sector + (if s = sector then less else 0) =
      count sector + if s = sector then more else 0 := by
  by_cases same : s = sector
  · subst same
    simp [shift]
  · simp [same, update_of_ne (Ne.symm same)]

theorem update_drop {s : Nat} (used : 0 < count s) (sector : Nat) :
    update count s (count s - 1) sector + (if s = sector then 1 else 0) = count sector := by
  have shift := update_shift count (by omega : count s - 1 + 1 = count s + 0) sector
  rwa [ite_self] at shift

theorem toNat_eq_zero {value : Byte} : value.toNat = 0 ↔ value = 0 := by
  rw [← BitVec.toNat_inj]
  rfl

theorem release_eq {sector read : Nat} (decision : read = 0 ↔ accounts.ref sector = 0) :
    accounts.release sector read = { accounts with toCounters := accounts.toCounters.drop sector } := by
  unfold Accounts.release Counters.drop
  by_cases last : read = 0
  · rw [if_neg (by omega), if_pos (decision.mp last)]
    rfl
  · have nonzero : accounts.ref sector ≠ 0 := fun none => last (decision.mpr none)
    have bumped : bumpRef (-1) (accounts.ref sector) = accounts.ref sector - 1 := by
      rw [bumpRef, if_neg (by decide), if_pos rfl, if_neg nonzero]
    rw [if_pos (by omega), if_neg nonzero]
    simp only [Accounts.bump, bumped]

theorem drop_ref_zero {sector other : Nat} (several : other = sector → 1 < (accounts.ref sector).toNat) :
    (accounts.toCounters.drop sector).ref other = 0 ↔ accounts.ref other = 0 := by
  unfold Counters.drop
  split
  · rfl
  · rename_i nonzero
    by_cases same : other = sector
    · subst same
      simp only [update_self]
      rw [← toNat_eq_zero, toNat_sub_one nonzero, ← toNat_eq_zero]
      omega
    · simp only [update_of_ne same]

end Phases

/-! ## The steps -/

section Steps

variable {count : Nat → Nat} {slot candidate : Pointer} {old new read inum index b : Nat}
  (balanced : Balanced reserved accounts count)
include balanced

theorem balanced_redirect (idle : accounts.dedup = .idle) (slotOk : IsSlot slot)
    (candidateOk : IsSlot candidate) (filled : accounts.ptr slot ≠ 0) (present : accounts.ptr candidate ≠ 0)
    (moved : accounts.ptr slot ≠ accounts.ptr candidate) (apart : accounts.call.inode ≠ some slot.1)
    (apart' : accounts.call.inode ≠ some candidate.1) :
    Balanced reserved { accounts.point slot (accounts.ptr candidate) with
      dedup := .redirected slot candidate (accounts.ptr slot) (accounts.ptr candidate) } count := by
  have different : candidate ≠ slot := by
    rintro rfl
    exact moved rfl
  refine { balanced with
    balance := fun sector nonzero => ?_
    unowned := balanced.unowned_point slot (balanced.unowned candidate (mem_pointers_of_isSlot candidateOk))
    dedupOk := ⟨⟨slotOk, candidateOk, different.symm⟩, ⟨update_self _ _ _, update_of_ne different _ _⟩,
      ⟨filled, present, moved⟩, balanced.unowned slot (mem_pointers_of_isSlot slotOk) filled, apart, apart'⟩
    callOk := balanced.callOk.congr (fun other locked => update_of_ne ?_ _ _) (fun _ _ => Iff.rfl) fun _ _ _ _ => id }
  · have owed := balanced.balance sector nonzero
    have moves := users_balance accounts.ptr (mem_pointers_of_isSlot slotOk) (accounts.ptr candidate) sector
    simp only [idle, Accounts.point, owedRaise, owedDrop, @eq_comm _ sector] at owed ⊢
    omega
  · rintro rfl
    exact apart locked

theorem balanced_raise (phase : accounts.dedup = .redirected slot candidate old new) (room : accounts.ref new ≠ 255) :
    Balanced reserved { accounts.bump new 1 with dedup := .raised slot candidate old }
      (update count new (count new + 1)) := by
  obtain ⟨_, _, ⟨oldPresent, present, moved⟩, unowned, _⟩ := balanced.dedupIn phase
  have shared := balanced.count_ge present
  rw [phase, owedRaise, if_pos rfl] at shared
  have value := balanced.counts.ref new present
  have below : (accounts.ref new).toNat ≠ 255 := fun full => room (BitVec.eq_of_toNat_eq full)
  have raised : Counts _ _ (update count new (count new + 1))
      (accounts.toCounters.raise new) := balanced.counts.raise (by omega) fun _ => by omega
  refine { balanced with
    counts := raised
    balance := fun sector nonzero => ?_
    dedupOk := ⟨oldPresent, unowned⟩
    callOk := balanced.callOk.congr (fun _ _ => rfl) (fun sector reads => ?_) fun _ _ other _ before => ?_ }
  · have owed := balanced.balance sector nonzero
    have more := update_shift count (by rfl : count new + 1 + 0 = count new + 1) sector
    simp only [phase, Accounts.bump, owedRaise, owedDrop, @eq_comm _ sector, ite_self] at owed more ⊢
    omega
  · obtain ⟨_, _, _, least⟩ := balanced.shared_of_read reads
    by_cases isNew : sector = new
    · subst isNew
      rw [phase, owedRaise, if_pos rfl] at least
      -- a count that is raised while the transaction has read it was not zero
      have after : ((accounts.toCounters.raise sector).ref sector).toNat = _ := raised.ref sector present
      rw [update_self] at after
      rw [← toNat_eq_zero, ← toNat_eq_zero]
      change ((accounts.toCounters.raise sector).ref sector).toNat = 0 ↔ _
      omega
    · simp only [Accounts.bump, update_of_ne isNew]
  · rw [update_apply]
    split_ifs <;> omega

theorem balanced_readOld (phase : accounts.dedup = .raised slot candidate old) :
    Balanced reserved { accounts with dedup := .decided slot candidate old (accounts.ref old).toNat } count := by
  obtain ⟨present, unowned⟩ := balanced.dedupIn phase
  refine { balanced with
    balance := fun sector nonzero => ?_
    dedupOk := ⟨present, unowned, toNat_eq_zero⟩ }
  have owed := balanced.balance sector nonzero
  rwa [phase] at owed

theorem balanced_giveUp (phase : accounts.dedup = .decided slot candidate old read)
    (careful : Careful accounts .giveUp) (allowed : 0 < read ∨ accounts.call = .idle) :
    Balanced reserved { accounts.release old read with dedup := .idle } (update count old (count old - 1)) := by
  obtain ⟨present, unowned, decision⟩ := balanced.dedupIn phase
  have used := balanced.count_ge present
  rw [phase, owedDrop, if_pos rfl] at used
  rw [release_eq decision]
  refine { balanced with
    counts := balanced.counts.drop present (by omega) unowned
    balance := fun sector nonzero => ?_
    dedupOk := trivial
    callOk := balanced.callOk.congr (fun _ _ => rfl) (fun sector reads => drop_ref_zero fun isOld => ?_)
      fun inum index other copying before => ?_ }
  · have owed := balanced.balance sector nonzero
    have fewer := update_drop (by omega : 0 < count old) sector
    simp only [phase, owedRaise, owedDrop, @eq_comm _ sector] at owed ⊢
    omega
  · subst isOld
    exact careful _ (by rw [phase]; rfl) reads
  · rcases allowed with shared | idle
    · have value := balanced.counts.ref old present
      have nonzero : (accounts.ref old).toNat ≠ 0 := fun zero =>
        absurd (decision.mpr (toNat_eq_zero.mp zero)) (by omega)
      rw [update_apply]
      split_ifs <;> omega
    · rw [idle] at copying
      cases copying

/-- The transaction goes on with nothing to copy. -/
theorem balanced_turn {phase : CallPhase}
    (free : ∀ inum ∈ accounts.dedup.locks, accounts.call.inode ≠ some inum → phase.inode ≠ some inum)
    (owes : owedCopy phase = owedCopy accounts.call) (callOk : CallOk accounts.ptr accounts.ref count phase) :
    Balanced reserved { accounts with call := phase } count := by
  refine { balanced with
    balance := fun sector nonzero => ?_
    dedupOk := balanced.dedupOk.congr (fun _ _ => rfl) free (fun _ _ => Iff.rfl) fun _ _ => id
    callOk := callOk }
  rw [owes]
  exact balanced.balance sector nonzero

omit balanced in
theorem ptr_update_apart {target : Nat} (ptr : Pointer → Nat) (apart : some inum ≠ some slot.1) :
    update ptr (inum, index) target slot = ptr slot := by
  refine update_of_ne ?_ _ _
  rintro rfl
  exact apart rfl

theorem balanced_drop (phase : accounts.call = .dropping inum index read) (careful : Careful accounts .drop) :
    Balanced reserved { (accounts.release (accounts.ptr (inum, index)) read).point (inum, index) 0 with
      call := .working inum }
      (update count (accounts.ptr (inum, index)) (count (accounts.ptr (inum, index)) - 1)) := by
  obtain ⟨isSlot, _, decision⟩ := balanced.callIn phase
  have reads : accounts.call.read accounts.ptr = some (accounts.ptr (inum, index)) := by
    rw [phase]
    rfl
  obtain ⟨present, used, unowned, _⟩ := balanced.shared_of_read reads
  have dedupOk := balanced.dedupOk
  rw [phase] at dedupOk
  rw [release_eq decision]
  refine { balanced with
    counts := balanced.counts.drop present used unowned
    balance := fun sector nonzero => ?_
    unowned := balanced.unowned_point (inum, index) fun none => absurd rfl none
    dedupOk := dedupOk.congr (fun slot apart => ptr_update_apart _ apart) (fun _ _ => id)
      (fun old readOld => drop_ref_zero fun same => ?_) fun _ _ => id
    callOk := isSlot.1 }
  · have owed := balanced.balance sector nonzero
    have moves := users_balance accounts.ptr (mem_pointers_of_isSlot isSlot) 0 sector
    have fewer := update_drop used sector
    simp only [phase, Accounts.point, owedCopy] at owed ⊢
    rw [if_neg (Ne.symm nonzero)] at moves
    omega
  · subst same
    exact careful _ readOld reads

theorem Balanced.unused_of_owned {sector : Nat} (present : sector ≠ 0)
    (owned : Owned reserved accounts.table sector) : count sector = 0 := by
  have owed := balanced.balance sector present
  have none : users pointers accounts.ptr sector = 0 := by
    refine Nat.eq_zero_of_not_pos fun some => ?_
    obtain ⟨slot, member, points⟩ := users_pos_iff.mp some
    subst points
    exact balanced.unowned slot member present owned
  have apart := balanced.dedupOk.unowned owned
  omega

theorem Balanced.owned_retable (inum other : Nat) : Owned reserved (update accounts.table inum b) other ↔
    b ≠ 0 ∧ other = b ∨ (accounts.table inum ≠ 0 → other ≠ accounts.table inum) ∧ Owned reserved accounts.table other := by
  constructor
  · rintro (isReserved | ⟨nonzero, holder, holds⟩)
    · refine .inr ⟨?_, .inl isReserved⟩
      rintro present rfl
      exact balanced.unreserved inum present isReserved
    · by_cases self : holder = inum
      · rw [self, update_self] at holds
        exact .inl ⟨holds ▸ nonzero, holds.symm⟩
      · rw [update_of_ne self] at holds
        refine .inr ⟨?_, .inr ⟨nonzero, holder, holds⟩⟩
        rintro present rfl
        exact self (balanced.tables inum holder present holds.symm).symm
  · rintro (⟨nonzero, rfl⟩ | ⟨apart, isReserved | ⟨nonzero, holder, holds⟩⟩)
    · exact .inr ⟨nonzero, inum, update_self _ _ _⟩
    · exact .inl isReserved
    · refine .inr ⟨nonzero, holder, ?_⟩
      rw [update_of_ne ?_]
      · exact holds
      · rintro rfl
        exact apart (holds ▸ nonzero) holds.symm

/-- The table of an inode is replaced by a sector without an owner, or by none. -/
theorem balanced_retable {sector : Nat} {used : Bool} (fresh : b ≠ 0 → accounts.Free b)
    (counts : Counts (· ≠ 0) (Owned reserved (update accounts.table inum b)) count (accounts.mark sector used).toCounters) :
    Balanced reserved { accounts.mark sector used with table := update accounts.table inum b } count := by
  have apart (other : Nat) (some : b ≠ 0) : accounts.table other ≠ b := fun holds =>
    (balanced.free_unused (fresh some)).2 (.inr ⟨some, other, holds⟩)
  refine { balanced with
    counts := counts
    unowned := fun slot member points isOwned => ?_
    tables := fun first second => ?_
    unreserved := fun other => ?_
    dedupOk := balanced.dedupOk.congr (fun _ _ => rfl) (fun _ _ => id) (fun _ _ => Iff.rfl)
      fun old owes before isOwned => ?_ }
  · rcases (balanced.owned_retable inum _).mp isOwned with ⟨some, isNew⟩ | ⟨_, before⟩
    · have used : 0 < users pointers accounts.ptr b := users_pos_iff.mpr ⟨slot, member, isNew⟩
      have unused := (balanced.free_users (fresh some)).1
      omega
    · exact balanced.unowned slot member points before
  · dsimp only
    by_cases isFirst : first = inum
    · by_cases isSecond : second = inum
      · exact fun _ _ => isFirst.trans isSecond.symm
      · rw [isFirst, update_self, update_of_ne isSecond]
        exact fun some same => absurd same.symm (apart second some)
    · by_cases isSecond : second = inum
      · rw [isSecond, update_self, update_of_ne isFirst]
        exact fun some same => absurd same (apart first (same ▸ some))
      · rw [update_of_ne isFirst, update_of_ne isSecond]
        exact balanced.tables first second
  · dsimp only
    by_cases self : other = inum
    · rw [self, update_self]
      exact fun some isReserved => (balanced.free_unused (fresh some)).2 (.inl isReserved)
    · rw [update_of_ne self]
      exact balanced.unreserved other
  · rcases (balanced.owned_retable inum old).mp isOwned with ⟨some, isNew⟩ | ⟨_, isOld⟩
    · rw [isNew, (balanced.free_users (fresh some)).2.2.1] at owes
      cases owes
    · exact before isOld

theorem balanced_freeTable (present : accounts.table inum ≠ 0) :
    Balanced reserved { accounts.mark (accounts.table inum) false with
      table := update accounts.table inum 0 } count := by
  refine balanced_retable balanced (absurd rfl) (balanced.counts.disown (fun other => ?_) ?_)
  · simp [balanced.owned_retable, present]
  · exact balanced.unused_of_owned present (.inr ⟨present, inum, rfl⟩)

theorem balanced_mapTable (empty : accounts.table inum = 0) (free : accounts.Free b) :
    Balanced reserved { accounts.mark b true with table := update accounts.table inum b } count := by
  refine balanced_retable balanced (fun _ => free) (balanced.counts.own fun other => ?_)
  simp [balanced.owned_retable, empty, free.1]

/-- A free sector becomes the block of one pointer of the transaction's inode. -/
theorem balanced_fresh (isSlot : IsSlot (inum, index)) (free : accounts.Free b)
    (busy : accounts.call.inode = some inum) (inode : call.inode = some inum)
    (points : ∀ slot ∈ pointers, ptr slot = update accounts.ptr (inum, index) b slot)
    (kept : ∀ slot : Pointer, some inum ≠ some slot.1 → ptr slot = accounts.ptr slot)
    (owes : ∀ sector ≠ 0, owedCopy call sector + (if accounts.ptr (inum, index) = sector then 1 else 0) =
      owedCopy accounts.call sector) (callOk : CallOk ptr accounts.ref (update count b 1) call) :
    Balanced reserved { accounts.mark b true with ptr := ptr, call := call } (update count b 1) := by
  refine { balanced with
    counts := balanced.counts.alloc free.1 free.2.2
    balance := fun sector nonzero => ?_
    unowned := fun slot member => ?_
    dedupOk := ?_
    callOk := callOk }
  · have owed := balanced.balance sector nonzero
    have moves := users_balance accounts.ptr (mem_pointers_of_isSlot isSlot) b sector
    have agree : users pointers ptr sector = users pointers (update accounts.ptr (inum, index) b) sector :=
      users_congr fun slot member => by rw [points slot member]
    have copies := owes sector nonzero
    have more := update_shift count (by rw [(balanced.free_unused free).1] : 1 + 0 = count b + 1) sector
    simp only [Accounts.mark, ite_self] at more ⊢
    omega
  · simp only [points slot member]
    exact balanced.unowned_point (inum, index) (fun _ => (balanced.free_unused free).2) slot member
  · have dedupOk := balanced.dedupOk
    rw [busy] at dedupOk
    simp only [inode]
    exact dedupOk.congr kept (fun _ _ => id) (fun _ _ => Iff.rfl) fun _ _ => id

theorem balanced_map (working : accounts.call = .working inum) (inside : index < MAXFILE)
    (empty : accounts.ptr (inum, index) = 0) (free : accounts.Free b) :
    Balanced reserved ((accounts.mark b true).point (inum, index) b) (update count b 1) := by
  have valid := balanced.callIn working
  have inode : accounts.call.inode = some inum := by
    rw [working]
    rfl
  refine balanced_fresh balanced ⟨valid, inside⟩ free inode inode (fun _ _ => rfl)
    (fun _ apart => ptr_update_apart _ apart) (fun sector nonzero => ?_) ?_
  · rw [empty, if_neg (Ne.symm nonzero)]
    rfl
  · show CallOk _ _ _ accounts.call
    rw [working]
    exact valid

theorem balanced_lower (phase : accounts.call = .writing inum index read)
    (careful : Careful accounts .lower) (shared : 0 < read) :
    Balanced reserved { accounts.bump (accounts.ptr (inum, index)) (-1) with
      call := .copying inum index (accounts.ptr (inum, index)) }
      (update count (accounts.ptr (inum, index)) (count (accounts.ptr (inum, index)) - 1)) := by
  obtain ⟨isSlot, _, decision⟩ := balanced.callIn phase
  have released : accounts.bump (accounts.ptr (inum, index)) (-1) =
      accounts.release (accounts.ptr (inum, index)) read := (if_pos shared).symm
  have reads : accounts.call.read accounts.ptr = some (accounts.ptr (inum, index)) := by
    rw [phase]
    rfl
  obtain ⟨present, used, unowned, _⟩ := balanced.shared_of_read reads
  have value := balanced.counts.ref _ present
  have nonzero : (accounts.ref (accounts.ptr (inum, index))).toNat ≠ 0 := fun zero =>
    absurd (decision.mpr (toNat_eq_zero.mp zero)) (by omega)
  have dedupOk := balanced.dedupOk
  rw [phase] at dedupOk
  rw [released, release_eq decision]
  refine { balanced with
    counts := balanced.counts.drop present used unowned
    balance := fun sector here => ?_
    dedupOk := dedupOk.congr (fun _ _ => rfl) (fun _ _ => id)
      (fun old readOld => drop_ref_zero fun same => ?_) fun _ _ => id
    callOk := ⟨isSlot, rfl, present, ?_⟩ }
  · have owed := balanced.balance sector here
    have fewer := update_drop used sector
    simp only [phase, owedCopy, @eq_comm _ sector] at owed ⊢
    omega
  · subst same
    exact careful _ readOld reads
  · rw [update_self]
    omega

theorem balanced_copy (phase : accounts.call = .copying inum index old)
    (careful : ∀ other < MAXFILE, accounts.ptr (inum, other) = old → other = index)
    (free : accounts.Free b) : Balanced reserved { accounts.mark b true with
      ptr := fun slot => if slot.1 = inum ∧ accounts.ptr slot = old then b else accounts.ptr slot
      call := .working inum } (update count b 1) := by
  obtain ⟨isSlot, points, _⟩ := balanced.callIn phase
  refine balanced_fresh balanced isSlot free (by rw [phase]; rfl) rfl ?_ (fun slot apart => if_neg ?_)
    (fun sector _ => ?_) isSlot.1
  · -- only one pointer of the file is replaced
    rintro ⟨holder, other⟩ member
    have bounded := (mem_pointers.mp member).2
    by_cases self : (holder, other) = (inum, index)
    · rw [self, update_self, if_pos ⟨rfl, points⟩]
    · rw [update_of_ne self, if_neg]
      rintro ⟨rfl, holds⟩
      exact self (congrArg (Prod.mk holder) (careful other bounded holds))
  · rintro ⟨rfl, _⟩
    exact apart rfl
  · rw [phase, points]
    simp only [owedCopy, @eq_comm _ sector, Nat.zero_add]

omit balanced in
theorem balanced_step {next : Accounts} (balanced : Balanced reserved accounts count)
    (step : CarefulStep accounts next) : ∃ count', Balanced reserved next count' := by
  obtain ⟨act, careful, acts⟩ := step
  revert acts
  -- one case for each way to take a step; the steps that have to wait are gone
  fun_cases Accounts.act accounts act <;> rintro ⟨⟩
  case case1 ok =>
    obtain ⟨idle, slotOk, candidateOk, filled, present, moved, apart, apart'⟩ := ok
    exact ⟨_, balanced_redirect balanced idle slotOk candidateOk filled present moved apart apart'⟩
  case case3 phase =>
    simp only [Careful, phase] at careful
    exact ⟨_, balanced_raise balanced phase careful⟩
  case case5 phase => exact ⟨_, balanced_readOld balanced phase⟩
  case case7 phase allowed => exact ⟨_, balanced_giveUp balanced phase careful allowed⟩
  case case10 ok =>
    refine ⟨_, balanced_turn balanced (fun other member _ same => ?_) (by rw [ok.1]; rfl) ⟨ok.2.1, ok.2.2.1⟩⟩
    cases same
    exact ok.2.2.2 member
  case case12 phase => exact ⟨_, balanced_turn balanced (fun _ _ _ => nofun) (by rw [phase]; rfl) trivial⟩
  case case14 phase ok =>
    exact ⟨_, balanced_turn balanced (by rw [phase]; exact fun _ _ => id) (by rw [phase]; rfl)
      ⟨⟨balanced.callIn phase, ok.1⟩, ok.2, toNat_eq_zero⟩⟩
  case case17 phase => exact ⟨_, balanced_drop balanced phase careful⟩
  case case19 ok => exact ⟨_, balanced_freeTable balanced ok.1⟩
  case case22 phase ok => exact ⟨_, balanced_map balanced phase ok.1 ok.2.2.1 ok.2.2.2⟩
  case case25 ok => exact ⟨_, balanced_mapTable balanced ok.1 ok.2⟩
  case case28 phase ok =>
    exact ⟨_, balanced_turn balanced (by rw [phase]; exact fun _ _ => id) (by rw [phase]; rfl)
      ⟨⟨balanced.callIn phase, ok.1⟩, ok.2, toNat_eq_zero⟩⟩
  case case31 phase shared => exact ⟨_, balanced_lower balanced phase careful shared⟩
  case case32 phase _ =>
    exact ⟨_, balanced_turn balanced (by rw [phase]; exact fun _ _ => id) (by rw [phase]; rfl)
      (balanced.callIn phase).1.1⟩
  case case34 phase free =>
    simp only [Careful, phase] at careful
    exact ⟨_, balanced_copy balanced phase careful free⟩

end Steps

/-! ## Runs -/

theorem balanced_run {start state : Accounts} (ready : Ready reserved start)
    (run : Relation.ReflTransGen CarefulStep start state) : ∃ count, Balanced reserved state count := by
  induction run with
  | refl => exact ⟨_, ready.balanced⟩
  | tail _ step ih =>
    obtain ⟨count, balanced⟩ := ih
    exact balanced_step balanced step

/-- When no count that both processes have read is lowered to zero, no count
wraps and no copy replaces two pointers, the counts are right whenever both
processes have finished. -/
theorem careful_counts_right {reserved : Nat → Prop} {start state : Accounts}
    (ready : Ready reserved start) (run : Relation.ReflTransGen CarefulStep start state)
    (dedup : state.dedup = .idle) (call : state.call = .idle) : Right reserved state := by
  obtain ⟨count, balanced⟩ := balanced_run ready run
  exact balanced.right dedup call

/-! ## A lost update -/

/-- Three files of one block: inodes 2 and 3 share sector 31, inode 4 has sector 32. -/
def threeFiles : Accounts where
  ref sector := if sector = 31 then 1 else 0
  used sector := decide (sector = 31 ∨ sector = 32)
  ptr slot :=
    if slot = (2, 0) then 31 else if slot = (3, 0) then 31 else if slot = (4, 0) then 32 else 0

theorem users_threeFiles (sector : Nat) (present : sector ≠ 0) :
    users pointers threeFiles.ptr sector = 2 * (if 31 = sector then 1 else 0) + if 32 = sector then 1 else 0 := by
  have member (inum : Nat) (lower : 1 ≤ inum) (upper : inum < NINODES) : (inum, 0) ∈ pointers :=
    mem_pointers.mpr ⟨⟨lower, upper⟩, Nat.succ_pos 139⟩
  have built : threeFiles.ptr = update (update (update (fun _ => 0) (4, 0) 32) (3, 0) 31) (2, 0) 31 := by
    funext slot
    simp only [threeFiles, update_apply]
  have first := users_balance (fun _ => 0) (member 4 (by decide) (by decide)) 32 sector
  have second := users_balance (update (fun _ => 0) (4, 0) 32) (member 3 (by decide) (by decide)) 31 sector
  have third := users_balance (update (update (fun _ => 0) (4, 0) 32) (3, 0) 31)
    (member 2 (by decide) (by decide)) 31 sector
  have none : users pointers (fun _ => 0) sector = 0 := by simp [users, present.symm]
  rw [none] at first
  rw [built]
  simp [present.symm] at first second third
  omega

theorem ready_threeFiles : Ready (fun _ => False) threeFiles where
  right := by
    refine ⟨fun sector present => ?_, fun sector present => ?_⟩
    · rw [users_threeFiles sector present]
      simp only [threeFiles, @eq_comm _ sector]
      by_cases isShared : 31 = sector
      · simp [← isShared]
      · simp only [if_neg isShared]
        split <;> rfl
    · rw [users_threeFiles sector present]
      simp only [threeFiles, Owned, decide_eq_true_eq, false_or, @eq_comm _ sector]
      split_ifs <;> simp_all [present.symm]
  unowned slot _ points owned := by
    rcases owned with none | ⟨_, _, holds⟩
    · exact none
    · exact points holds.symm
  tables _ _ present := absurd rfl present
  unreserved _ present := absurd rfl present
  dedup := rfl
  call := rfl

def Accounts.run (accounts : Accounts) : List Act → Option Accounts
  | [] => some accounts
  | act :: rest => (accounts.act act).bind fun next => next.run rest

theorem steps_of_acts {final : Accounts} {acts : List Act} (ran : accounts.run acts = some final) :
    Relation.ReflTransGen Step accounts final := by
  induction acts generalizing accounts with
  | nil =>
    cases ran
    exact .refl
  | cons act rest ih =>
    obtain ⟨next, stepped, later⟩ := Option.bind_eq_some_iff.mp ran
    exact .head ⟨act, stepped⟩ (ih later)

/-- `deletedups` moves inode 2 to sector 32 and inode 3 is truncated. Both have
read count 1 of sector 31 and both lower it, so nobody frees the sector. -/
theorem overlapping_drops_lose_an_update :
    Ready (fun _ => False) threeFiles ∧ ∃ state, Relation.ReflTransGen Step threeFiles state ∧
      state.dedup = .idle ∧ state.call = .idle ∧ state.used 31 = true ∧
      (∀ slot ∈ pointers, state.ptr slot ≠ 31) ∧ ¬ Right (fun _ => False) state := by
  have ran : (threeFiles.run [.redirect (2, 0) (4, 0), .raise, .readOld, .begin 3, .readDrop 0,
      .giveUp, .drop, .commit]).map (fun state => (state.dedup, state.call, state.used 31, state.table)) =
      some (.idle, .idle, true, fun _ => 0) := by rfl
  obtain ⟨state, acts, view⟩ := Option.map_eq_some_iff.mp ran
  obtain ⟨dedup, rest⟩ := Prod.mk.inj view
  obtain ⟨call, rest⟩ := Prod.mk.inj rest
  obtain ⟨used, table⟩ := Prod.mk.inj rest
  have moved : state.ptr = update (update threeFiles.ptr (2, 0) 32) (3, 0) 0 := by
    cases acts
    rfl
  have unused : ∀ slot ∈ pointers, state.ptr slot ≠ 31 := by
    intro slot _
    simp only [moved, threeFiles, update_apply]
    split_ifs <;> decide
  refine ⟨ready_threeFiles, state, steps_of_acts acts, dedup, call, used, unused, fun right => ?_⟩
  rcases (right.used 31 (by decide)).mp used with shared | none | ⟨_, _, holds⟩
  · obtain ⟨slot, member, points⟩ := users_pos_iff.mp shared
    exact unused slot member points
  · exact none
  · rw [table] at holds
    cases holds

theorem careful_giveUp_alone (idle : accounts.call = .idle) : Careful accounts .giveUp := by
  intro sector _ reads
  rw [idle] at reads
  cases reads

theorem careful_drop_alone (idle : accounts.dedup = .idle) : Careful accounts .drop := by
  intro sector reads
  rw [idle] at reads
  cases reads

/-- The same calls, one after the other. -/
theorem careful_counts_right_threeFiles :
    ∃ state, Relation.ReflTransGen CarefulStep threeFiles state ∧ state.used 31 = false ∧
      Right (fun _ => False) state := by
  have run : ∃ state, Relation.ReflTransGen CarefulStep threeFiles state ∧
      state.dedup = .idle ∧ state.call = .idle ∧ state.used 31 = false := by
    refine ⟨_, .head ⟨.redirect (2, 0) (4, 0), trivial, rfl⟩ <|
      .head ⟨.raise, (by decide : (0 : Byte) ≠ 255), rfl⟩ <|
      .head ⟨.readOld, trivial, rfl⟩ <|
      .head ⟨.giveUp, careful_giveUp_alone rfl, rfl⟩ <|
      .head ⟨.begin 3, trivial, rfl⟩ <|
      .head ⟨.readDrop 0, trivial, rfl⟩ <|
      .head ⟨.drop, careful_drop_alone rfl, rfl⟩ <|
      .head ⟨.commit, trivial, rfl⟩ .refl, rfl, rfl, rfl⟩
  obtain ⟨state, steps, dedup, call, freed⟩ := run
  exact ⟨state, steps, freed, careful_counts_right ready_threeFiles steps dedup call⟩

/-! ## The model and the disk -/

def accountsOf (blocks : Blocks) : Accounts where
  toShares := sharesOf blocks
  table inum := if Allocated blocks inum then (dinodeOf blocks inum).addr NDIRECT else 0

theorem accountsOf_table {blocks : Blocks} {inum table : Nat} (present : table ≠ 0) :
    (accountsOf blocks).table inum = table ↔ TableOf blocks inum table := by
  simp only [accountsOf, TableOf]
  by_cases allocated : Allocated blocks inum
  · simp [allocated, present]
  · simp [allocated, present.symm]

/-- A consistent disk is a state to start from. The sectors outside the data
area have no pointers, and their reference bytes are never raised. -/
theorem ready_of_consistent {blocks : Blocks} (consistent : Consistent blocks)
    (clear : ∀ sector, ¬ IsData sector → refOf blocks sector = 0) :
    Ready (fun sector => ¬ IsData sector ∧ usedOf blocks sector = true) (accountsOf blocks) := by
  have owned : ∀ sector, IsData sector → (Owned (fun sector => ¬ IsData sector ∧ usedOf blocks sector = true)
        (accountsOf blocks).table sector ↔ IsTable blocks sector) := by
    intro sector data
    constructor
    · rintro (⟨outside, _⟩ | ⟨present, inum, holds⟩)
      · exact absurd data outside
      · exact ⟨inum, (accountsOf_table present).mp holds⟩
    · rintro ⟨inum, table⟩
      exact .inr ⟨table.2.2, inum, (accountsOf_table table.2.2).mpr table⟩
  have outside : ∀ sector ≠ 0, ¬ IsData sector → users pointers (pointersOf blocks) sector = 0 := by
    intro sector present notData
    refine Nat.eq_zero_of_not_pos fun some => ?_
    obtain ⟨slot, _, points⟩ := users_pos_iff.mp some
    subst points
    exact notData (consistent.data slot present)
  constructor
  · refine ⟨fun sector present => ?_, fun sector present => ?_⟩
    · by_cases data : IsData sector
      · exact consistent.accounted.ref sector data
      · change (refOf blocks sector).toNat = users pointers (pointersOf blocks) sector - 1
        rw [outside sector present data, clear sector data]
        rfl
    · by_cases data : IsData sector
      · rw [owned sector data]
        exact consistent.accounted.used sector data
      · change usedOf blocks sector = true ↔ 0 < users pointers (pointersOf blocks) sector ∨ _
        rw [outside sector present data]
        constructor
        · exact fun used => .inr (.inl ⟨data, used⟩)
        · rintro (some | ⟨_, used⟩ | ⟨_, inum, holds⟩)
          · cases some
          · exact used
          · exact absurd (consistent.tables inum sector ((accountsOf_table present).mp holds)) data
  · intro slot _ points isOwned
    have data := consistent.data slot points
    exact consistent.tablesApart _ ((owned _ data).mp isOwned) slot rfl
  · intro first second present same
    exact consistent.tablesOwned first second _ ((accountsOf_table present).mp rfl)
      ((accountsOf_table present).mp same.symm)
  · intro inum present isReserved
    exact isReserved.1 (consistent.tables inum _ ((accountsOf_table present).mp rfl))
  · rfl
  · rfl

theorem redirect_alone {slot candidate : Pointer} (idle : accounts.dedup = .idle)
    (free : accounts.call = .idle) (slotOk : IsSlot slot) (candidateOk : IsSlot candidate)
    (filled : accounts.ptr slot ≠ 0) (present : accounts.ptr candidate ≠ 0)
    (moved : accounts.ptr slot ≠ accounts.ptr candidate) :
    ∃ final, accounts.run [.redirect slot candidate, .raise, .readOld, .giveUp] = some final ∧ final.dedup = .idle ∧
      final.toShares = accounts.toShares.redirect slot (accounts.ptr candidate) := by
  have unlocked : accounts.call.inode = none := by
    rw [free]
    rfl
  let redirected : Accounts := { accounts.point slot (accounts.ptr candidate) with
    dedup := .redirected slot candidate (accounts.ptr slot) (accounts.ptr candidate) }
  let raised : Accounts := { redirected.bump (accounts.ptr candidate) 1 with
    dedup := .raised slot candidate (accounts.ptr slot) }
  let decided : Accounts := { raised with
    dedup := .decided slot candidate (accounts.ptr slot) (raised.ref (accounts.ptr slot)).toNat }
  let read := (raised.ref (accounts.ptr slot)).toNat
  have first : accounts.act (.redirect slot candidate) = some redirected := by
    refine if_pos ⟨idle, slotOk, candidateOk, filled, present, moved, ?_⟩
    rw [unlocked]
    exact ⟨nofun, nofun⟩
  have second : redirected.act .raise = some raised := rfl
  have third : raised.act .readOld = some decided := rfl
  have fourth : decided.act .giveUp =
      some { decided.release (accounts.ptr slot) read with dedup := .idle } := if_pos (.inr free)
  have decision : read = 0 ↔ decided.ref (accounts.ptr slot) = 0 := toNat_eq_zero
  refine ⟨{ decided.release (accounts.ptr slot) read with dedup := .idle }, ?_, rfl, ?_⟩
  · simp only [Accounts.run, first, second, third, fourth, Option.bind_some]
  · rw [release_eq decision]
    rfl

end Xv6Dedup.Counting
