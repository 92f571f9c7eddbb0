import Xv6Dedup.Kernel.InodesProperties
import Xv6Dedup.Crash.Recovery

/-!
# Reading files

What `bmap` and `readi` return outside transactions, and what a freshly started
kernel reads from a disk.
-/

set_option autoImplicit false

namespace Xv6Dedup

open Program

def Mapped (blocks : Blocks) (inode : Dinode) (off count : Nat) : Prop :=
  ∀ k < count, blockPointer blocks inode ((off + k) / BSIZE) ≠ 0

instance (blocks : Blocks) (inode : Dinode) (off count : Nat) : Decidable (Mapped blocks inode off count) :=
  inferInstanceAs (Decidable (∀ k < count, _ ≠ 0))

def fileByte (blocks : Blocks) (inode : Dinode) (position : Nat) : Byte :=
  (blocks (blockPointer blocks inode (position / BSIZE))).get (position % BSIZE)

def fileBytes (blocks : Blocks) (inode : Dinode) (off count : Nat) : List Byte :=
  (List.range count).map fun k => fileByte blocks inode (off + k)

/-- The result of `readi`; it does not return when a block is missing. -/
def readResult (drivers : Drivers) (blocks : Blocks) (inode : Dinode) (off n : Nat) : Option (Int × List Byte) :=
  if inode.type = T_DEV then
    match if inode.major < NDEV then drivers.read inode.major else none with
    | none => some (-1, [])
    | some read => some (read n)
  else if inode.size < off ∨ (off + n) % 2 ^ 32 < off then some (-1, [])
  else
    let count := if inode.size < (off + n) % 2 ^ 32 then inode.size - off else n
    if Mapped blocks inode off count then some (count, fileBytes blocks inode off count) else none

section Reading

variable {free : Freedom} {state : State} {Stops : Stop → State → Prop} {ip : Slot} {inode : Dinode}

theorem bmapAddr_wp {Post : Nat → State → Prop} {index : Nat} (calm : Calm ∅ ∅ state)
    (current : (state.icache ip).toDinode = inode) (hole : inode.addr index = 0 → ∀ reason after, Stops reason after)
    (next : inode.addr index ≠ 0 → Post (inode.addr index) state) : FsWp free (bmapAddr ip index) state Post Stops := by
  refine Wp.peek ?_
  rw [current]
  refine Wp.ite (fun zero => ?_) (fun nonzero => Wp.pure (next nonzero))
  refine Wp.bind (Wp.mono (Wp.never (halts_balloc _ calm.logFree))
    (fun _ _ impossible => impossible.elim) fun reason after _ => hole zero reason after)

theorem bmap_wp {Post : Nat → State → Prop} {bn : Nat} (calm : Calm ∅ ∅ state)
    (current : (state.icache ip).toDinode = inode)
    (hole : blockPointer state.data inode bn = 0 → ∀ reason after, Stops reason after)
    (next : blockPointer state.data inode bn ≠ 0 → Post (blockPointer state.data inode bn) state) :
    FsWp free (bmap ip bn) state Post Stops := by
  unfold blockPointer at hole next
  refine Wp.ite (fun direct => ?_) (fun past => ?_)
  · rw [if_pos direct] at hole next
    exact bmapAddr_wp calm current hole next
  · rw [if_neg past] at hole next
    refine Wp.ite (fun inside => ?_) (fun outside => Wp.throw (hole ?_ _ _))
    · have bounded : bn < MAXFILE := by
        simp only [MAXFILE] at *
        omega
      simp only [bounded, true_and] at hole next
      refine Wp.bind (bmapAddr_wp calm current (fun zero => hole (by simp [zero])) fun nonzero => ?_)
      rw [if_pos nonzero] at hole next
      have idle : (state.buf (inode.addr NDIRECT)).busy = false :=
        calm.idle (Finset.notMem_empty _)
      refine read_wp (calm.steady free) idle ?_
      refine Wp.ite (fun zero => ?_) (fun present => ?_)
      · exact Wp.bind (Wp.mono (Wp.never (halts_balloc _ (by exact calm.logFree)))
          (fun _ _ impossible => impossible.elim) fun reason after _ => hole zero reason after)
      · exact Wp.bind (brelse_hold_wp idle (Wp.pure (next present)))
    · rw [if_neg]
      intro both
      have small := both.1
      simp only [MAXFILE] at small
      omega

theorem fileBytes_split {blocks : Blocks} {off count part : Nat} (fits : part ≤ count)
    (within : part ≤ BSIZE - off % BSIZE) : fileBytes blocks inode off count =
      (List.range part).map (fun k => (blocks (blockPointer blocks inode (off / BSIZE))).get
        (off % BSIZE + k)) ++ fileBytes blocks inode (off + part) (count - part) := by
  obtain ⟨rest, rfl⟩ := Nat.exists_eq_add_of_le fits
  rw [Nat.add_sub_cancel_left, fileBytes, List.range_add, List.map_append, List.map_map, fileBytes]
  congr 1
  · apply List.map_congr_left
    intro k member
    have small := List.mem_range.mp member
    have block : (off + k) / BSIZE = off / BSIZE := by
      simp only [BSIZE] at *
      omega
    have offset : (off + k) % BSIZE = off % BSIZE + k := by
      simp only [BSIZE] at *
      omega
    rw [fileByte, block, offset]
  · apply List.map_congr_left
    intro k _
    simp only [Function.comp_apply, Nat.add_assoc]

theorem readLoop_wp {Post : List Byte → State → Prop} {count off n : Nat} (calm : Calm ∅ ∅ state)
    (current : (state.icache ip).toDinode = inode) (enough : n ≤ count)
    (hole : ¬ Mapped state.data inode off n → ∀ reason after, Stops reason after)
    (next : Mapped state.data inode off n → Post (fileBytes state.data inode off n) state) :
    FsWp free (readLoop ip count off n) state Post Stops := by
  induction count generalizing off n Post with
  | zero =>
    have zero : n = 0 := Nat.le_zero.mp enough
    subst zero
    exact Wp.pure (next fun k small => absurd small (Nat.not_lt_zero k))
  | succ count ih =>
    refine Wp.ite (fun zero => ?_) (fun nonzero => ?_)
    · subst zero
      exact Wp.pure (next fun k small => absurd small (Nat.not_lt_zero k))
    · have remains : 0 < BSIZE - off % BSIZE := by
        simp only [BSIZE]
        omega
      refine Wp.bind (bmap_wp calm current (fun zero => hole fun mapped => ?_) fun nonzero => ?_)
      · exact mapped 0 (by omega) zero
      have idle : (state.buf (blockPointer state.data inode (off / BSIZE))).busy = false :=
        calm.idle (Finset.notMem_empty _)
      have fits : min n (BSIZE - off % BSIZE) ≤ n := Nat.min_le_left _ _
      have within : min n (BSIZE - off % BSIZE) ≤ BSIZE - off % BSIZE := Nat.min_le_right _ _
      refine read_wp (calm.steady free) idle (Wp.bind (brelse_hold_wp idle ?_))
      refine Wp.bind (ih (by omega) ?_ fun mapped => Wp.pure ?_)
      · intro unmapped
        apply hole
        intro mapped
        apply unmapped
        intro k small
        rw [Nat.add_assoc]
        exact mapped _ (by omega)
      · rw [← fileBytes_split fits within]
        apply next
        intro k small
        by_cases here : k < min n (BSIZE - off % BSIZE)
        · have block : (off + k) / BSIZE = off / BSIZE := by
            simp only [BSIZE] at *
            omega
          rw [block]
          exact nonzero
        · have later := mapped (k - min n (BSIZE - off % BSIZE)) (by omega)
          rwa [Nat.add_assoc, Nat.add_sub_cancel' (Nat.not_lt.mp here)] at later

theorem readi_wp {off n : Nat} (calm : Calm ∅ ∅ state) (current : (state.icache ip).toDinode = inode) :
    FsWp free (readi ip off n) state
      (fun result after => readResult state.drivers state.data inode off n = some result ∧ after = state)
      (fun _ _ => readResult state.drivers state.data inode off n = none) := by
  subst current
  unfold readResult
  refine Wp.see ?_
  refine Wp.ite (fun device => ?_) (fun ordinary => ?_)
  · rw [if_pos device]
    cases (if (state.icache ip).major < NDEV then state.drivers.read (state.icache ip).major
      else none) with
    | none | some read => exact Wp.pure ⟨rfl, rfl⟩
  · rw [if_neg ordinary]
    refine Wp.ite (fun refused => ?_) (fun accepted => ?_)
    · rw [if_pos refused]
      exact Wp.pure ⟨rfl, rfl⟩
    · rw [if_neg accepted]
      refine Wp.bind (readLoop_wp calm rfl (Nat.le_refl _) ?_ fun mapped => Wp.pure ?_)
      · intro unmapped _ _
        exact if_neg unmapped
      · exact ⟨if_pos mapped, rfl⟩

end Reading

/-! ## Reading from a disk -/

def readInode (inum off n : Nat) : FsM (Int × List Byte) := do
  let ip ← iget inum
  ilock ip
  readi ip off n

def mounted (drivers : Drivers) (disk : Blocks) : State :=
  { rebooted LOGSTART LOGSIZE disk with drivers := drivers }

/-- The bytes that a freshly started kernel reads, if it returns. -/
def reread (drivers : Drivers) (disk : Blocks) (inum off n : Nat) (memo : Memo) : Option (Int × List Byte) :=
  returned (readInode inum off n (mounted drivers disk, memo))

theorem mounted_calm (drivers : Drivers) (disk : Blocks) : Calm ∅ ∅ (mounted drivers disk) where
  busy := by simp [mounted, rebooted]
  clean := fun _ => rfl
  synced := fun _ _ => rfl
  looseHeld := Finset.Subset.refl _
  logFree := rfl
  logEmpty := rfl

theorem mounted_cached (drivers : Drivers) (disk : Blocks) :
    Cached (mounted drivers disk).icache (dinodeOf disk) [] [] (mounted drivers disk).icache where
  counted := fun _ => Int.le_refl _
  refs := fun _ => rfl
  inums := fun _ _ => rfl
  distinct := fun _ _ used => absurd used (Int.lt_irrefl 0)
  valid := fun _ used => absurd used (Int.lt_irrefl 0)
  busy := fun _ used => absurd used (Int.lt_irrefl 0)

theorem reread_eq (drivers : Drivers) (disk : Blocks) (inum off n : Nat) {memo : Memo} (allowed : MemoOk .full memo) :
    reread drivers disk inum off n memo = if (dinodeOf disk inum).type = 0 then none
      else readResult drivers disk (dinodeOf disk inum) off n := by
  have calm := mounted_calm drivers disk
  suffices correct : FsWp .full (readInode inum off n) (mounted drivers disk)
      (fun result _ => (if (dinodeOf disk inum).type = 0 then none
        else readResult drivers disk (dinodeOf disk inum) off n) = some result)
      (fun _ _ => (if (dinodeOf disk inum).type = 0 then none
        else readResult drivers disk (dinodeOf disk inum) off n) = none) from
    correct.returned_eq allowed
  refine Wp.bind (iget_wp (mounted_cached drivers disk) (by simp) (by simp) ?_ ?_)
  · intro full
    exact absurd rfl (full ⟨0, by decide⟩)
  · intro ip icache cached _ number _ unread
    by_cases untyped : (dinodeOf disk inum).type = 0
    · rw [if_pos untyped]
      have never : FsWp .full (ilock ip) ((mounted drivers disk).withCache icache)
          (fun _ _ => False) (fun _ _ => True) :=
        ilock_free_wp cached List.mem_cons_self number (unread rfl) (calm.steady .full)
          (calm.idle (Finset.notMem_empty _)) untyped fun _ _ => trivial
      exact Wp.bind (never.mono (fun _ _ impossible => impossible.elim) fun _ _ _ => rfl)
    · rw [if_neg untyped]
      refine Wp.bind (ilock_wp cached (by simp) (by simp) number (calm.steady .full)
        (calm.idle (Finset.notMem_empty _)) rfl untyped ?_)
      intro icache' _ current _ _
      have locked : Calm ∅ ∅ ((mounted drivers disk).withCache icache') :=
        { calm with }
      exact (readi_wp locked current).post fun _ _ both => both.1

end Xv6Dedup
