import Xv6Dedup.Base.Frame
import Xv6Dedup.Kernel.File

/-!
# What the file system code touches

Code that works on one locked inode changes no other entry of the inode cache,
keeps its reference count, and inside a transaction never makes `log_write`
complain that there is none. The code that takes and drops references changes
the counts by a known amount.
-/

set_option autoImplicit false

namespace Xv6Dedup

open Function Program

/-- The panic of `log_write` outside a transaction. -/
def outsideTrans : Stop := .panic "write outside of trans"

/-- The program does not stop for want of a transaction. -/
abbrev TransWp {α : Type} (program : FsM α) (state : State) (Post : α → State → Prop) : Prop :=
  Wp (fun _ : Memo => True) program state Post fun reason _ => reason ≠ outsideTrans

/-- What holds of the results of a program that returns. -/
abbrev Yields {α : Type} (program : FsM α) (state : State) (Post : α → State → Prop) : Prop :=
  Wp (fun _ : Memo => True) program state Post (fun _ _ => True)

theorem Wp.yields {α : Type} {program : FsM α} {state : State} {Post : α → State → Prop}
    {Stops : Stop → State → Prop} (correct : Wp (fun _ => True) program state Post Stops) : Yields program state Post :=
  correct.stops fun _ _ _ => trivial

theorem Wp.logged {α : Type} {program : FsM α} {state : State} {Post : α → State → Prop}
    (correct : Wp (fun _ => True) program state Post fun reason _ => state.log.busy = true → reason ≠ outsideTrans)
    (logging : state.log.busy = true) : TransWp program state Post :=
  correct.stops fun _ _ allowed => allowed logging

/-- What the cache knows of an inode without reading it. -/
def Inode.place (inode : Inode) : Int × Nat := (inode.ref, inode.inum)

/-- Only the entry `ip` of the inode cache may differ, and neither in its count nor
in its inode number. -/
structure Confined (ip : Slot) (state next : State) : Prop where
  files : next.ftable = state.ftable
  pipes : next.pipes = state.pipes
  cwd : next.cwd = state.cwd
  logging : next.log.busy = state.log.busy
  others : ∀ slot, slot ≠ ip → next.icache slot = state.icache slot
  place : (next.icache ip).place = (state.icache ip).place

theorem Confined.ref {ip : Slot} {state next : State} (confined : Confined ip state next) :
    (next.icache ip).ref = (state.icache ip).ref :=
  congrArg Prod.fst confined.place

def slotFrame (ip : Slot) : Frame Stop State where
  Rel := Confined ip
  Stops := fun state reason => state.log.busy = true → reason ≠ outsideTrans
  refl := fun _ => ⟨rfl, rfl, rfl, rfl, fun _ _ => rfl, rfl⟩
  trans := fun first second =>
    { files := second.files.trans first.files
      pipes := second.pipes.trans first.pipes
      cwd := second.cwd.trans first.cwd
      logging := second.logging.trans first.logging
      others := fun slot other => (second.others slot other).trans (first.others slot other)
      place := second.place.trans first.place }
  back := fun first allowed logging => allowed (first.logging.trans logging)

/-- The program works on the inode in slot `ip`. -/
abbrev Touches {α : Type} (ip : Slot) (program : FsM α) : Prop :=
  (slotFrame ip).Keeps (fun _ : Memo => True) program

section Touches

open Frame

variable {α : Type} {ip : Slot}

private theorem touches_throw {reason : Stop} (other : reason ≠ outsideTrans) : Touches ip (throw reason : FsM α) :=
  Keeps.throw fun _ _ => other

private theorem touches_panic {message : String} (other : message ≠ "write outside of trans") :
    Touches ip (kernelPanic message : FsM α) :=
  touches_throw fun same => other (Stop.panic.inj same)

private def State.shared (state : State) :=
  (state.ftable, state.pipes, state.cwd, state.log.busy, state.icache)

private theorem touches_quietly {update : State → State}
    (same : ∀ state, (update state).shared = state.shared) : Touches ip (change update : FsM Unit) :=
  Keeps.change fun state => by
    have all := same state
    simp only [State.shared, Prod.mk.injEq] at all
    obtain ⟨files, pipes, cwd, logging, icache⟩ := all
    exact ⟨files, pipes, cwd, logging, fun slot _ => congrFun icache slot, congrArg Inode.place (congrFun icache ip)⟩

private theorem touches_inode {update : State → Inode}
    (place : ∀ state, (update state).place = (state.icache ip).place) :
    Touches ip (change fun state => state.setInode ip (update state) : FsM Unit) :=
  Keeps.change fun state =>
    { files := rfl
      pipes := rfl
      cwd := rfl
      logging := rfl
      others := fun slot other => by
        simp only [State.setInode, update_of_ne other]
      place := by
        simp only [State.setInode, update_self]
        exact place state }

private theorem touches_remember {update : Memo → Memo} : Touches ip (remember update : FsM Unit) :=
  Keeps.remember fun _ _ => trivial

/-! ## Buffers and the log -/

theorem touches_bread (sector : Nat) : Touches ip (bread sector) :=
  Keeps.remembered.bind fun _ => touches_remember.bind fun _ =>
    (touches_quietly (by intro _; rfl)).bind fun _ =>
      Keeps.visible.bind fun _ => (touches_throw (by decide)).ite ((touches_quietly (by intro _; rfl)).bind fun _ =>
          Keeps.pure _)

theorem touches_bdata (b : Nat) : Touches ip (bdata b) :=
  Keeps.visible.bind fun _ => (Keeps.pure _).ite (touches_throw (by decide))

theorem touches_bset (b : Nat) (data : Block) : Touches ip (bset b data) :=
  Keeps.visible.bind fun _ =>
    (touches_quietly (by intro _; rfl)).ite (touches_throw (by decide))

theorem touches_bwrite (b : Nat) : Touches ip (bwrite b) :=
  Keeps.visible.bind fun _ =>
    (touches_quietly (by intro _; rfl)).ite (touches_panic (by decide))

theorem touches_brelse (b : Nat) : Touches ip (brelse b) :=
  Keeps.visible.bind fun _ =>
    (touches_quietly (by intro _; rfl)).ite (touches_panic (by decide))

theorem touches_readsb : Touches ip readsb :=
  (touches_bread _).bind fun _ => (touches_bdata _).bind fun _ => (touches_brelse _).bind fun _ =>
    Keeps.pure _

theorem touches_log_write (b : Nat) : Touches ip (log_write b) := by
  intro state
  refine Wp.see (Wp.ite (fun _ => ?_) fun _ => Wp.ite (fun idle => ?_) fun _ => ?_)
  · exact touches_panic (by decide) state
  · exact Wp.throw fun logging => absurd (idle.symm.trans logging) nofun
  · have rest : Touches ip (do
        let index := state.log.sectors.idxOf b
        let lbuf ← bread (state.log.start + index + 1)
        bset lbuf (← bdata b)
        bwrite lbuf
        brelse lbuf
        change fun state => { state with log := { state.log with
          sectors := if index = state.log.sectors.length then state.log.sectors ++ [b]
            else state.log.sectors } }
        change fun state => state.setBuf b { state.buf b with dirty := true }) :=
      (touches_bread _).bind fun _ => (touches_bdata _).bind fun _ =>
        (touches_bset _ _).bind fun _ => (touches_bwrite _).bind fun _ =>
          (touches_brelse _).bind fun _ =>
            (touches_quietly (by intro _; rfl)).bind fun _ =>
              (touches_quietly (by intro _; rfl))
    exact rest state

private theorem touches_install (start tail : Nat) (sectors : List Nat) :
    Touches ip (installFrom start tail sectors) := by
  induction sectors generalizing tail with
  | nil => exact Keeps.pure ()
  | cons sector rest ih =>
    exact (touches_bread _).bind fun _ => (touches_bread _).bind fun _ =>
      (touches_bdata _).bind fun _ => (touches_bset _ _).bind fun _ =>
        (touches_bwrite _).bind fun _ => (touches_brelse _).bind fun _ =>
          (touches_brelse _).bind fun _ => ih (tail + 1)

private theorem touches_write_head : Touches ip write_head :=
  Keeps.visible.bind fun _ => (touches_bread _).bind fun _ => (touches_bdata _).bind fun _ =>
    (touches_bset _ _).bind fun _ => (touches_bwrite _).bind fun _ => touches_brelse _

theorem touches_commit : Touches ip (do
      write_head
      install_trans
      clearHead
      write_head) :=
  touches_write_head.bind fun _ => (Keeps.visible.bind fun _ => touches_install _ _ _).bind fun _ =>
    (touches_quietly (by intro _; rfl)).bind fun _ =>
      touches_write_head

/-! ## Blocks -/

private theorem touches_bzero (bno : Nat) : Touches ip (bzero bno) :=
  (touches_bread _).bind fun _ => (touches_bset _ _).bind fun _ =>
    (touches_log_write _).bind fun _ => touches_brelse _

theorem touches_balloc : Touches ip balloc := by
  have scan : ∀ (sb : Superblock) (count b : Nat), Touches ip (ballocFrom sb count b) := by
    intro sb count
    induction count with
    | zero => exact fun _ => touches_panic (by decide)
    | succ count ih =>
      intro b
      refine (touches_bread _).bind fun bp => (touches_bdata _).bind fun data => ?_
      cases freeBit data sb.size b with
      | some bi =>
        exact (touches_bset _ _).bind fun _ => (touches_log_write _).bind fun _ =>
          (touches_brelse _).bind fun _ => (touches_bzero _).bind fun _ => Keeps.pure _
      | none => exact (touches_brelse _).bind fun _ => ih _
  exact touches_readsb.bind fun sb => scan sb _ _

theorem touches_bfree (b : Nat) : Touches ip (bfree b) :=
  touches_readsb.bind fun _ => (touches_bread _).bind fun _ => (touches_bdata _).bind fun _ =>
    (touches_panic (by decide)).ite ((touches_bset _ _).bind fun _ =>
      (touches_log_write _).bind fun _ => touches_brelse _)

private theorem touches_getRefCount (ref : Nat) : Touches ip (getRefCount ref) :=
  Keeps.remembered.bind fun _ => (touches_readsb.bind fun _ => touches_remember).onlyIf.bind fun _ =>
    Keeps.remembered.bind fun _ => (Keeps.pure _).ite (Keeps.pure _)

theorem touches_getBlkRef (sector : Nat) : Touches ip (getBlkRef sector) := by
  have read : ∀ ref position, Touches ip (readRefByte ref position) := fun ref position =>
    (touches_getRefCount ref).bind fun _ => (touches_bread _).bind fun _ =>
      (touches_bdata _).bind fun _ => (touches_brelse _).bind fun _ => Keeps.pure _
  exact (read _ _).ite ((read _ _).ite (touches_throw (by decide)))

theorem touches_updateBlkRef (sector : Nat) (flag : Int) : Touches ip (updateBlkRef sector flag) := by
  have update : ∀ ref position, Touches ip (updateRefByte ref position flag) := fun ref position =>
    (touches_getRefCount ref).bind fun _ => (touches_bread _).bind fun _ =>
      (touches_bdata _).bind fun _ => (touches_bset _ _).bind fun _ =>
        (touches_bwrite _).bind fun _ => touches_brelse _
  exact (update _ _).ite ((update _ _).ite (Keeps.pure ()))

/-! ## The inode -/

theorem touches_inodeAt (slot : Slot) : Touches ip (inodeAt slot) :=
  Keeps.visible.bind fun _ => Keeps.pure _

theorem touches_iupdate (slot : Slot) : Touches ip (iupdate slot) :=
  (touches_inodeAt slot).bind fun _ => (touches_bread _).bind fun _ => (touches_bdata _).bind fun _ =>
    (touches_bset _ _).bind fun _ => (touches_log_write _).bind fun _ => touches_brelse _

theorem Confined.setInode {start state : State} {inode : Inode} (before : Confined ip start state)
    (place : inode.place = (start.icache ip).place) : Confined ip start (state.setInode ip inode) :=
  { before with
    others := fun slot other => by
      simp only [State.setInode, update_of_ne other]
      exact before.others slot other
    place := by
      simp only [State.setInode, update_self]
      exact place }

private theorem touches_reading {body : Inode → FsM α}
    (each : ∀ start : State, Wp (fun _ => True) (body (start.icache ip)) start (fun _ => Confined ip start)
      (fun reason _ => start.log.busy = true → reason ≠ outsideTrans)) : Touches ip (inodeAt ip >>= body) :=
  fun start => Wp.peek (each start)

private theorem wp_setInode {start state : State} {inode : Inode} {rest : Unit → FsM α}
    (before : Confined ip start state) (place : inode.place = (start.icache ip).place)
    (restTouches : Touches ip (rest ())) :
    Wp (fun _ => True) (setInode ip inode >>= rest) state (fun _ => Confined ip start)
      (fun reason _ => start.log.busy = true → reason ≠ outsideTrans) :=
  Wp.set (restTouches.after (before.setInode place))

private theorem confined_refl (state : State) : Confined ip state state := (slotFrame ip).refl state

theorem touches_modify {update : Inode → Inode} {rest : Inode → FsM α}
    (place : ∀ inode, (update inode).place = inode.place)
    (restTouches : ∀ inode, Touches ip (rest inode)) :
    Touches ip (do
      let inode ← inodeAt ip
      setInode ip (update inode)
      rest inode) :=
  touches_reading fun start => wp_setInode (confined_refl start) (place _) (restTouches _)

theorem touches_ilock : Touches ip (ilock ip) := by
  refine touches_reading fun start => ?_
  refine Wp.ite (fun _ => touches_panic (by decide) start) fun _ => ?_
  refine Wp.ite (fun _ => touches_throw (by decide) start) fun _ => ?_
  refine Wp.set (Wp.ite (fun _ => Wp.pure ?_) fun _ => ?_)
  · exact (confined_refl start).setInode rfl
  · have locked : Confined ip start (start.setInode ip { start.icache ip with busy := true }) :=
      (confined_refl start).setInode rfl
    refine Wp.seq ((touches_bread _).after locked) fun bp first firstConfined => ?_
    refine Wp.seq ((touches_bdata _).after firstConfined) fun data second secondConfined => ?_
    refine Wp.seq ((touches_brelse _).after secondConfined) fun _ third thirdConfined => ?_
    exact wp_setInode thirdConfined rfl ((touches_panic (by decide)).ite (Keeps.pure ()))

theorem touches_iunlock : Touches ip (iunlock ip) := by
  refine touches_reading fun start => ?_
  refine Wp.ite (fun _ => touches_panic (by decide) start) fun _ => Wp.change ?_
  exact (confined_refl start).setInode rfl

theorem touches_bmapAddr (index : Nat) : Touches ip (bmapAddr ip index) :=
  (touches_inodeAt ip).bind fun _ => (touches_balloc.bind fun _ =>
    (touches_inode (by intro _; rfl)).bind fun _ => Keeps.pure _).ite (Keeps.pure _)

theorem touches_bmap (bn : Nat) : Touches ip (bmap ip bn) :=
  (touches_bmapAddr bn).ite (((touches_bmapAddr _).bind fun _ => (touches_bread _).bind fun _ =>
    (touches_bdata _).bind fun _ =>
      (touches_balloc.bind fun _ => (touches_bset _ _).bind fun _ =>
        (touches_log_write _).bind fun _ => (touches_brelse _).bind fun _ => Keeps.pure _).ite
        ((touches_brelse _).bind fun _ => Keeps.pure _)).ite (touches_panic (by decide)))

private theorem touches_dropBlk (addr : Nat) : Touches ip (dropBlk addr) :=
  (touches_getBlkRef addr).bind fun _ => (touches_updateBlkRef _ _).ite (touches_bfree _)

theorem touches_itrunc : Touches ip (itrunc ip) := by
  have direct : ∀ index, Touches ip (itruncDirect ip index) := fun index =>
    (touches_inodeAt ip).bind fun _ => (Keeps.pure ()).ite
      ((touches_dropBlk _).bind fun _ => touches_inode (by intro _; rfl))
  have entry : ∀ bp index, Touches ip (itruncEntry bp index) := fun bp index =>
    (touches_bdata _).bind fun _ => (Keeps.pure ()).ite (touches_dropBlk _)
  have table : Touches ip (itruncTable ip) :=
    (touches_inodeAt ip).bind fun _ => (Keeps.pure ()).ite ((touches_bread _).bind fun _ =>
      (Keeps.forUp (entry _) _ _).bind fun _ => (touches_brelse _).bind fun _ =>
        (touches_bfree _).bind fun _ => touches_inode (by intro _; rfl))
  exact (Keeps.forUp direct _ _).bind fun _ => table.bind fun _ =>
    (touches_inode (by intro _; rfl)).bind fun _ => touches_iupdate ip

theorem touches_iputFree : Touches ip (iputFree ip) := by
  refine touches_reading fun start => ?_
  refine Wp.ite (fun _ => touches_panic (by decide) start) fun _ => ?_
  exact wp_setInode (confined_refl start) rfl (touches_itrunc.bind fun _ =>
    (touches_inode (by intro _; rfl)).bind fun _ => (touches_iupdate ip).bind fun _ =>
      touches_inode (by intro _; rfl))

theorem touches_replaceBlk (old new : Nat) : Touches ip (replaceBlk ip old new) := by
  have direct : ∀ index, Touches ip (replaceDirect ip old new index) := fun index =>
    touches_reading fun start => Wp.onlyIf
      (fun _ => Wp.change ((confined_refl start).setInode rfl)) fun _ => confined_refl start
  have entry : ∀ bp index, Touches ip (replaceEntry bp old new index) := fun bp index =>
    (touches_bdata _).bind fun _ => (touches_bset _ _).onlyIf
  exact (Keeps.forUp direct _ _).bind fun _ => (touches_inodeAt ip).bind fun _ =>
    (Keeps.pure ()).ite ((touches_bread _).bind fun _ => (Keeps.forUp (entry _) _ _).bind fun _ =>
      touches_brelse _)

/-! ## Reading and writing -/

theorem keeps_readi {frame : Frame Stop State} {Hidden : Memo → Prop}
    (bmap : ∀ bn, frame.Keeps Hidden (bmap ip bn)) (bread : ∀ sector, frame.Keeps Hidden (bread sector))
    (bdata : ∀ b, frame.Keeps Hidden (bdata b)) (brelse : ∀ b, frame.Keeps Hidden (brelse b)) (off n : Nat) :
    frame.Keeps Hidden (readi ip off n) := by
  have loop (count off n : Nat) : frame.Keeps Hidden (readLoop ip count off n) := by
    induction count generalizing off n with
    | zero => exact Keeps.pure []
    | succ count ih =>
      exact (Keeps.pure []).ite ((bmap _).bind fun _ => (bread _).bind fun _ =>
        (bdata _).bind fun _ => (brelse _).bind fun _ => (ih _ _).bind fun _ => Keeps.pure _)
  refine Keeps.visible.bind fun state => Keeps.ite ?_ ((Keeps.pure _).ite ((loop _ _ _).bind fun _ => Keeps.pure _))
  cases (if (state.icache ip).major < NDEV then state.drivers.read (state.icache ip).major else none) with
  | none | some read => exact Keeps.pure _

theorem touches_readi (off n : Nat) : Touches ip (readi ip off n) :=
  keeps_readi touches_bmap touches_bread touches_bdata touches_brelse off n

theorem touches_copyOnWrite (bp : Nat) : Touches ip (copyOnWrite ip bp) :=
  (touches_getBlkRef bp).bind fun _ => ((touches_updateBlkRef _ _).bind fun _ =>
    (touches_bdata _).bind fun _ => (touches_brelse _).bind fun _ => touches_balloc.bind fun _ =>
      (touches_replaceBlk _ _).bind fun _ => (touches_bread _).bind fun _ =>
        (touches_bset _ _).bind fun _ => Keeps.pure _).ite (Keeps.pure _)

theorem touches_writeLoop (src : Nat → Byte) (count tot off n : Nat) :
    Touches ip (writeLoop ip src count tot off n) := by
  induction count generalizing tot off with
  | zero => exact Keeps.pure ()
  | succ count ih =>
    exact (Keeps.pure ()).ite ((touches_bmap _).bind fun _ => (touches_bread _).bind fun _ =>
      (touches_copyOnWrite _).bind fun _ => (touches_bdata _).bind fun _ =>
        (touches_bset _ _).bind fun _ => (touches_log_write _).bind fun _ =>
          (touches_brelse _).bind fun _ => ih _ _)

theorem touches_writei (src : Nat → Byte) (off n : Nat) : Touches ip (writei ip src off n) := by
  have grow : Touches ip (do
      let inode ← inodeAt ip
      onlyIf (0 < n ∧ inode.size < off + n) do
        setInode ip { inode with size := off + n }
        iupdate ip
      pure (n : Int)) :=
    touches_reading fun start => Wp.seq (Wp.onlyIf
      (fun _ => wp_setInode (confined_refl start) rfl (touches_iupdate ip)) fun _ => confined_refl start)
      fun _ _ confined => Wp.pure confined
  refine Keeps.visible.bind fun state => Keeps.ite ?_ ((Keeps.pure _).ite ((Keeps.pure _).ite
    ((touches_writeLoop _ _ _ _ _).bind fun _ => grow)))
  cases (if (state.icache ip).major < NDEV then state.drivers.write (state.icache ip).major
    else none) with
  | none | some write => exact Keeps.pure _

theorem touches_readDirent (off : Nat) {message : String}
    (other : message ≠ "write outside of trans") : Touches ip (readDirent ip off message) :=
  (touches_readi off 16).bind fun _ => (touches_panic other).ite (Keeps.pure _)

theorem touches_emptyFrom (count off : Nat) : Touches ip (emptyFrom ip count off) := by
  induction count generalizing off with
  | zero => exact Keeps.pure off
  | succ count ih =>
    exact (touches_inodeAt ip).bind fun _ => (Keeps.pure off).ite
      ((touches_readDirent off (by decide)).bind fun _ => (Keeps.pure off).ite (ih _))

theorem touches_removable : Touches ip (removable ip) := by
  have scan : ∀ count off, Touches ip (isdiremptyFrom ip count off) := by
    intro count
    induction count with
    | zero => exact fun _ => Keeps.pure true
    | succ count ih =>
      exact fun off => (touches_inodeAt ip).bind fun _ => (Keeps.pure true).ite
        ((touches_readDirent off (by decide)).bind fun _ => (Keeps.pure false).ite (ih _))
  exact (touches_inodeAt ip).bind fun _ =>
    ((touches_inodeAt ip).bind fun _ => scan _ _).ite (Keeps.pure true)

end Touches

/-! ## Code that needs a transaction -/

/-- Outside a transaction the program does not return. -/
def Halts {α : Type} (program : FsM α) : Prop :=
  ∀ state, state.log.busy = false → Yields program state fun _ _ => False

section Halts

variable {α β : Type} {ip : Slot}

theorem Halts.bind {first : FsM β} (halts : Halts first) (rest : β → FsM α) : Halts (first >>= rest) :=
  fun state idle => Wp.seq (halts state idle) fun _ _ => False.elim

theorem Halts.after {first : FsM β} {rest : β → FsM α} (touches : ∀ slot, Touches slot first)
    (halts : ∀ value, Halts (rest value)) : Halts (first >>= rest) :=
  fun state idle => Wp.seq (touches 0 state).yields fun value next confined =>
    halts value next (confined.logging.trans idle)

theorem halts_log_write (b : Nat) : Halts (log_write b) := by
  intro state idle
  refine Wp.see (Wp.guard trivial fun _ => ?_)
  exact Wp.guard trivial fun busy => absurd idle busy

theorem halts_balloc : Halts balloc := by
  have scan (sb : Superblock) (count b : Nat) : Halts (ballocFrom sb count b) := by
    induction count generalizing b with
    | zero => exact fun _ _ => Wp.throw trivial
    | succ count ih =>
      refine Halts.after (fun _ => touches_bread _) fun bp =>
        Halts.after (fun _ => touches_bdata _) fun data => ?_
      cases freeBit data sb.size b with
      | some bi =>
        exact Halts.after (fun _ => touches_bset _ _) fun _ => (halts_log_write _).bind _
      | none => exact Halts.after (fun _ => touches_brelse _) fun _ => ih _
  exact Halts.after (fun _ => touches_readsb) fun sb => scan sb _ _

theorem halts_iupdate : Halts (iupdate ip) :=
  Halts.after (fun _ => touches_inodeAt _) fun _ => Halts.after (fun _ => touches_bread _) fun _ =>
    Halts.after (fun _ => touches_bdata _) fun _ => Halts.after (fun _ => touches_bset _ _) fun _ =>
      (halts_log_write _).bind _

theorem halts_iputFree : Halts (iputFree ip) := by
  intro state idle
  refine Wp.peek (Wp.guard trivial fun _ => ?_)
  refine Wp.set (Wp.seq (touches_itrunc _).yields fun _ next confined => ?_)
  exact Wp.set ((halts_iupdate.bind _) _ (confined.logging.trans idle))

end Halts

end Xv6Dedup
