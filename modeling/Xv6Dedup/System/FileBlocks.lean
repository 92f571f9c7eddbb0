import Xv6Dedup.System.Books

/-!
# The blocks of a file

`getFileBlocks` opens its file with `fileopen` and never closes it. Nothing it
runs writes to the disk: outside a transaction `log_write` panics, so code that
allocates, frees or updates an inode does not return.
-/

set_option autoImplicit false

namespace Xv6Dedup

open Function Program

def readFrame : Frame Stop State where
  Rel state next := state.log.busy = false →
    next.log.busy = false ∧ next.disk = state.disk ∧ next.icache = state.icache
  Stops _ _ := True
  refl _ idle := ⟨idle, rfl, rfl⟩
  trans first second idle := by
    obtain ⟨middleIdle, middleDisk, middleCache⟩ := first idle
    obtain ⟨nextIdle, nextDisk, nextCache⟩ := second middleIdle
    exact ⟨nextIdle, nextDisk.trans middleDisk, nextCache.trans middleCache⟩
  back _ _ := trivial

/-- Outside a transaction the program leaves the disk and the inode cache alone. -/
abbrev ReadOnly {α : Type} (program : FsM α) : Prop := readFrame.Keeps (fun _ : Memo => True) program

section ReadOnly

open Frame

variable {α β : Type} {ip : Slot}

theorem readOnly_throw (reason : Stop) : ReadOnly (throw reason : FsM α) :=
  Keeps.throw fun _ => trivial

theorem Halts.readOnly {program : FsM α} (halts : Halts program) : ReadOnly program := by
  intro state
  cases idle : state.log.busy with
  | true => exact Wp.anyhow fun _ _ free => absurd (idle.symm.trans free) nofun
  | false => exact (halts state idle).post fun _ _ => False.elim

theorem readOnly_bread (sector : Nat) : ReadOnly (bread sector) :=
  Keeps.remembered.bind fun _ => (Keeps.remember fun _ _ => trivial).bind fun _ =>
    (Keeps.change fun _ idle => ⟨idle, rfl, rfl⟩).bind fun _ => Keeps.visible.bind fun _ =>
      (readOnly_throw _).ite ((Keeps.change fun _ idle => ⟨idle, rfl, rfl⟩).bind fun _ =>
        Keeps.pure _)

theorem readOnly_bdata (b : Nat) : ReadOnly (bdata b) :=
  Keeps.visible.bind fun _ => (Keeps.pure _).ite (readOnly_throw _)

theorem readOnly_brelse (b : Nat) : ReadOnly (brelse b) :=
  Keeps.visible.bind fun _ =>
    (Keeps.change fun _ idle => ⟨idle, rfl, rfl⟩).ite (readOnly_throw _)

theorem readOnly_inodeAt (slot : Slot) : ReadOnly (inodeAt slot) :=
  Keeps.visible.bind fun _ => Keeps.pure _

theorem readOnly_bmap (bn : Nat) : ReadOnly (bmap ip bn) := by
  have addr (index : Nat) : ReadOnly (bmapAddr ip index) :=
    (readOnly_inodeAt ip).bind fun _ => (halts_balloc.bind _).readOnly.ite (Keeps.pure _)
  refine (addr bn).ite (Keeps.ite ?_ (readOnly_throw _))
  exact (addr NDIRECT).bind fun _ => (readOnly_bread _).bind fun _ => (readOnly_bdata _).bind fun _ =>
    (halts_balloc.bind _).readOnly.ite ((readOnly_brelse _).bind fun _ => Keeps.pure _)

theorem readOnly_readi (off n : Nat) : ReadOnly (readi ip off n) :=
  keeps_readi readOnly_bmap readOnly_bread readOnly_bdata readOnly_brelse off n

theorem readOnly_readDirent (off : Nat) (message : String) : ReadOnly (readDirent ip off message) :=
  (readOnly_readi off 16).bind fun _ => (readOnly_throw _).ite (Keeps.pure _)

end ReadOnly

/-! ## Locks -/

/-- No transaction is open, the disk is as it was, and only the given inode is locked. -/
structure Guarded (disk : Blocks) (held : Option Slot) (state : State) : Prop where
  idle : state.log.busy = false
  disk : state.disk = disk
  locks : ∀ slot, (state.icache slot).busy = decide (held = some slot)
  used : ∀ slot, held = some slot → 0 < (state.icache slot).ref

namespace Guarded

variable {α : Type} {disk : Blocks} {held : Option Slot} {state next : State} {ip : Slot}

theorem read (locking : Guarded disk held state) {program : FsM α} (reads : ReadOnly program) :
    Yields program state fun _ => Guarded disk held :=
  (reads state).mono (fun _ next kept => by
    obtain ⟨idle, same, cache⟩ := kept locking.idle
    exact ⟨idle, same.trans locking.disk, cache ▸ locking.locks, cache ▸ locking.used⟩)
    fun _ _ _ => trivial

theorem setInode (locking : Guarded disk held state) {inode : Inode} {next : Option Slot}
    (others : ∀ slot ≠ ip, next = some slot ↔ held = some slot)
    (lock : inode.busy = decide (next = some ip)) (used : next = some ip → 0 < inode.ref) :
    Guarded disk next (state.setInode ip inode) where
  idle := locking.idle
  disk := locking.disk
  locks := by
    refine (forall_update_iff state.icache fun slot (inode : Inode) =>
      inode.busy = decide (next = some slot)).mpr ⟨lock, fun slot other => ?_⟩
    rw [locking.locks]
    exact decide_eq_decide.mpr (others slot other).symm
  used := by
    refine (forall_update_iff state.icache fun slot (inode : Inode) =>
      next = some slot → 0 < inode.ref).mpr ⟨used, fun slot other locked => ?_⟩
    exact locking.used slot ((others slot other).mp locked)

theorem iget_wp (locking : Guarded disk held state) (inum : Nat) :
    Yields (iget inum) state fun _ => Guarded disk held := by
  refine Wp.see ?_
  cases state.findInode inum with
  | some slot =>
    refine Wp.set (Wp.pure (locking.setInode (fun _ _ => Iff.rfl) (locking.locks slot) ?_))
    intro locked
    have used := locking.used slot locked
    simp only
    omega
  | none =>
    cases empty : state.emptyInode with
    | none => exact Wp.throw trivial
    | some slot =>
      have free : held ≠ some slot := fun locked => by
        have used := locking.used slot locked
        rw [State.emptyInode_some empty] at used
        cases used
      exact Wp.set (Wp.pure (locking.setInode (fun _ _ => Iff.rfl)
        (decide_eq_false free).symm fun locked => absurd locked free))

theorem ilock_wp (locking : Guarded disk none state) : Yields (ilock ip) state fun _ => Guarded disk (some ip) := by
  refine Wp.peek ?_
  refine Wp.guard trivial fun counted => Wp.guard trivial fun _ => ?_
  have others (slot : Slot) (other : slot ≠ ip) : some ip = some slot ↔ none = some slot :=
    ⟨fun same => absurd (Option.some.inj same).symm other, nofun⟩
  have locked (inode : Inode) (busy : inode.busy = true) (ref : inode.ref = (state.icache ip).ref) :
      Guarded disk (some ip) (state.setInode ip inode) :=
    locking.setInode others (by rw [busy, decide_eq_true rfl]) fun _ => by omega
  have busy := locked { state.icache ip with busy := true } rfl rfl
  refine Wp.set (Wp.ite (fun _ => Wp.pure busy) fun _ => ?_)
  refine Wp.seq (busy.read (readOnly_bread _)) fun bp first reading => ?_
  refine Wp.seq (reading.read (readOnly_bdata _)) fun data second reading => ?_
  refine Wp.seq (reading.read (readOnly_brelse _)) fun _ third reading => ?_
  refine Wp.set (Wp.guard trivial fun _ => Wp.pure ?_)
  exact reading.setInode (fun _ _ => Iff.rfl) (decide_eq_true rfl).symm fun _ => by
    simp only
    omega

theorem iunlock_wp (locking : Guarded disk (some ip) state) : Yields (iunlock ip) state fun _ => Guarded disk none := by
  refine Wp.peek (Wp.guard trivial fun _ => ?_)
  refine Wp.change (locking.setInode (fun slot other => ?_) rfl nofun)
  exact ⟨nofun, fun same => absurd (Option.some.inj same).symm other⟩

theorem iput_wp (locking : Guarded disk none state) : Yields (iput ip) state fun _ => Guarded disk none := by
  refine Wp.peek (Wp.bind (Wp.onlyIf (fun _ => ?_) fun _ => ?_))
  · exact (halts_iputFree state locking.idle).post fun _ _ => False.elim
  · exact Wp.change (locking.setInode (fun _ _ => Iff.rfl) (locking.locks ip) nofun)

theorem iunlockput_wp (locking : Guarded disk (some ip) state) :
    Yields (iunlockput ip) state fun _ => Guarded disk none :=
  Wp.seq locking.iunlock_wp fun _ _ unlocked => unlocked.iput_wp

theorem dirlookup_wp (locking : Guarded disk held state) (name : List Byte) :
    Yields (dirlookup ip name) state fun _ => Guarded disk held := by
  have scan (count off : Nat) (current : State) (reading : Guarded disk held current) :
      Yields (dirlookupFrom ip name count off) current fun _ => Guarded disk held := by
    induction count generalizing off current with
    | zero => exact Wp.pure reading
    | succ count ih =>
      refine Wp.peek (Wp.ite (fun _ => Wp.pure reading) fun _ => ?_)
      refine Wp.seq (reading.read (readOnly_readDirent _ _)) fun de next reading => ?_
      refine Wp.ite (fun _ => ?_) fun _ => ih _ next reading
      exact Wp.seq (reading.iget_wp _) fun _ _ found => Wp.pure found
  refine Wp.peek (Wp.guard trivial fun _ => ?_)
  exact scan _ _ state locking

theorem namei_wp (locking : Guarded disk none state) (path : List Byte) :
    Yields (namei path) state fun _ => Guarded disk none := by
  have walk (count : Nat) (ip : Slot) (path : List Byte) (current : State) (walking : Guarded disk none current) :
      Yields (namexFrom false count ip path) current fun _ => Guarded disk none := by
    induction count generalizing ip path current with
    | zero => exact Wp.pure walking
    | succ count ih =>
      unfold namexFrom
      cases skipelem path with
      | none => exact Wp.ite (by rintro ⟨⟩) fun _ => Wp.pure walking
      | some element =>
        refine Wp.seq walking.ilock_wp fun _ locked locking => ?_
        refine Wp.peek (Wp.ite (fun _ => ?_) fun _ => ?_)
        · exact Wp.seq locking.iunlockput_wp fun _ _ done => Wp.pure done
        refine Wp.ite (fun parent => by cases parent.1) fun _ => ?_
        refine Wp.seq (locking.dirlookup_wp element.1) fun entry next locking => ?_
        cases entry with
        | none => exact Wp.seq locking.iunlockput_wp fun _ _ done => Wp.pure done
        | some entry => exact Wp.seq locking.iunlockput_wp fun _ last done => ih _ _ last done
  have began : Yields (startInode path) state fun _ => Guarded disk none := by
    refine Wp.see (Wp.ite (fun _ => locking.iget_wp _) fun _ => ?_)
    exact Wp.set (Wp.pure (locking.setInode (fun _ _ => Iff.rfl) (locking.locks _) (by rintro ⟨⟩)))
  refine Wp.seq (Wp.seq began fun ip next walking => walk _ ip path next walking) fun _ _ done => ?_
  exact Wp.pure done

end Guarded

/-! ## Opening a file -/

def booted : State := (Machine.boot {} Mkfs.bareDisk).kernel

end Xv6Dedup
