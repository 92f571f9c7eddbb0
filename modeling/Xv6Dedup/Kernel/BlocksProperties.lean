import Xv6Dedup.Kernel.Blocks
import Xv6Dedup.Kernel.Layout
import Xv6Dedup.Kernel.LogProperties

/-!
# Block and reference-count properties

Specifications of the block layer as state changes, and what one transaction
around a single logged block amounts to.
-/

set_option autoImplicit false

namespace Xv6Dedup

open Function Program

namespace State

/-- What `bread` returns for each sector. -/
def data (state : State) : Blocks := fun sector => (state.buf sector).data

theorem data_setBuf (state : State) (sector : Nat) (buffer : Buf) :
    (state.setBuf sector buffer).data = update state.data sector buffer.data :=
  funext (Function.apply_update (fun _ => Buf.data) state.buf sector buffer)

@[simp] theorem data_hold (state : State) (sector : Nat) : (state.hold sector).data = state.data :=
  (data_setBuf state sector _).trans (update_eq_self sector state.data)

@[simp] theorem data_release (state : State) (sector : Nat) : (state.release sector).data = state.data :=
  (data_setBuf state sector _).trans (update_eq_self sector state.data)

@[simp] theorem data_fill (state : State) (sector : Nat) (block : Block) :
    (state.fill sector block).data = update state.data sector block :=
  data_setBuf state sector _

@[simp] theorem data_written (state : State) (writes : List (Nat × Block)) :
    (state.written writes).data = afterWrites state.data writes := by
  funext sector
  by_cases member : sector ∈ writes.map (·.1)
  · rw [data, written_data_of_mem member]
    exact afterWrites_of_mem member
  · rw [data, written_buf_of_not_mem member, afterWrites_of_not_mem member]
    rfl

@[simp] theorem data_diskWrite (state : State) (sector : Nat) : (state.diskWrite sector).data = state.data :=
  (data_setBuf state sector _).trans (update_eq_self sector state.data)

end State

/-! ## Calm states -/

/-- Outside transactions: the buffers in `held` are busy, all others idle and
clean; only buffers in `loose` differ from the disk. -/
structure Calm (held loose : Finset Nat) (state : State) : Prop where
  busy : ∀ sector, (state.buf sector).busy = true ↔ sector ∈ held
  clean : ∀ sector, (state.buf sector).dirty = false
  synced : ∀ sector, sector ∉ loose → state.data sector = state.disk sector
  looseHeld : loose ⊆ held
  logFree : state.log.busy = false
  logEmpty : state.log.sectors = []

namespace Calm

variable {held loose : Finset Nat} {state : State} {sector : Nat}

section

variable (calm : Calm held loose state)
include calm

theorem idle (free : sector ∉ held) : (state.buf sector).busy = false := by
  rw [← Bool.not_eq_true, calm.busy]
  exact free

theorem steady (free : Freedom) : Steady free state :=
  .inr fun other idle _ => calm.synced other fun member => by
    have busy := (calm.busy other).mpr (calm.looseHeld member)
    rw [idle] at busy
    cases busy

theorem setBuf {held' loose' : Finset Nat} {buffer : Buf} {next : State}
    (buffers : next.buf = update state.buf sector buffer) (log : next.log = state.log)
    (busy : buffer.busy = true ↔ sector ∈ held') (others : ∀ other, other ≠ sector → (other ∈ held' ↔ other ∈ held))
    (clean : buffer.dirty = false) (synced : ∀ other, other ∉ loose' → next.data other = next.disk other)
    (looseHeld : loose' ⊆ held') : Calm held' loose' next := by
  refine ⟨?_, ?_, synced, looseHeld, log ▸ calm.logFree, log ▸ calm.logEmpty⟩
  · rw [buffers]
    refine (Function.forall_update_iff state.buf fun other copy => copy.busy = true ↔
      other ∈ held').mpr ⟨busy, fun other different => ?_⟩
    rw [others other different]
    exact calm.busy other
  · rw [buffers]
    exact (Function.forall_update_iff state.buf fun _ copy => copy.dirty = false).mpr
      ⟨clean, fun other _ => calm.clean other⟩

theorem hold (sector : Nat) : Calm (insert sector held) loose (state.hold sector) := by
  refine calm.setBuf rfl rfl (by simp) (fun other different => by simp [different])
    (calm.clean sector) (fun other tight => ?_) (calm.looseHeld.trans (Finset.subset_insert _ _))
  rw [State.data_hold]
  exact calm.synced other tight

theorem release (tight : sector ∉ loose) : Calm (held.erase sector) loose (state.release sector) := by
  refine calm.setBuf rfl rfl (by simp) (fun other different => by simp [different])
    (calm.clean sector) (fun other otherTight => ?_) fun other member => Finset.mem_erase.mpr
      ⟨fun same => tight (same ▸ member), calm.looseHeld member⟩
  rw [State.data_release]
  exact calm.synced other otherTight

theorem fill (inside : sector ∈ loose) (block : Block) : Calm held loose (state.fill sector block) := by
  refine calm.setBuf rfl rfl (calm.busy sector) (fun _ _ => Iff.rfl) (calm.clean sector)
    (fun other tight => ?_) calm.looseHeld
  rw [State.data_fill, update_of_ne (by rintro rfl; exact tight inside)]
  exact calm.synced other tight

theorem tighten (same : ∀ other, state.data other = state.disk other) : Calm held ∅ state :=
  { calm with
    synced := fun other _ => same other
    looseHeld := Finset.empty_subset _ }

end

theorem loosen (calm : Calm held ∅ state) (inside : loose ⊆ held) : Calm held loose state :=
  { calm with
    synced := fun other _ => calm.synced other (Finset.notMem_empty _)
    looseHeld := inside }

theorem diskWrite (calm : Calm held {sector} state) : Calm held ∅ (state.diskWrite sector) := by
  refine calm.setBuf rfl rfl (calm.busy sector) (fun _ _ => Iff.rfl) rfl (fun other _ => ?_) (Finset.empty_subset _)
  rw [State.data_diskWrite]
  by_cases same : other = sector
  · subst same
    simp [State.diskWrite, State.data]
  · have before := calm.synced other (by simpa using same)
    simpa [State.diskWrite, same] using before

theorem written {writes : List (Nat × Block)} (calm : Calm held loose state)
    (apart : ∀ write ∈ writes, write.1 ∉ held) : Calm held loose (state.written writes) where
  busy := by
    intro other
    by_cases member : other ∈ writes.map (·.1)
    · obtain ⟨write, included, rfl⟩ := List.mem_map.mp member
      simp only [State.written, member, if_true]
      simp [apart write included]
    · simp only [State.written, member, if_false]
      exact calm.busy other
  clean := by
    intro other
    by_cases member : other ∈ writes.map (·.1)
    · simp only [State.written, member, if_true]
    · simp only [State.written, member, if_false]
      exact calm.clean other
  synced := fun other tight => by
    rw [State.data_written]
    exact afterWrites_congr (calm.synced other tight)
  looseHeld := calm.looseHeld
  logFree := calm.logFree
  logEmpty := calm.logEmpty

end Calm

/-! ## The superblock and the reference bytes -/

section Specifications

variable {free : Freedom} {state : State} {Stops : Stop → State → Prop} {sector : Nat}

theorem read_wp {α : Type} {rest : Nat → Block → FsM α} {Post : α → State → Prop}
    (steady : Steady free state) (idle : (state.buf sector).busy = false)
    (next : FsWp free (rest sector (state.data sector)) (state.hold sector) Post Stops) :
    FsWp free (do
      let bp ← bread sector
      let data ← bdata bp
      rest bp data) state Post Stops := by
  refine Wp.bind (bread_wp steady idle ?_)
  refine Wp.bind (bdata_wp (by simp) ?_)
  have same : ((state.hold sector).buf sector).data = state.data sector := by
    simp [State.data]
  rw [same]
  exact next

variable {Post : Unit → State → Prop}

theorem brelse_hold_wp (idle : (state.buf sector).busy = false) (next : Post () state) :
    FsWp free (brelse sector) (state.hold sector) Post Stops := by
  refine brelse_wp (by simp) ?_
  rw [State.release_hold idle]
  exact next

theorem readsb_wp {Post : Superblock → State → Prop} (steady : Steady free state)
    (idle : (state.buf 1).busy = false) (next : Post (superblockOf (state.data 1)) state) :
    FsWp free readsb state Post Stops :=
  read_wp steady idle (Wp.bind (brelse_hold_wp idle (Wp.pure next)))

/-- The superblock is readable and is the one of `mkfs`. -/
structure SuperReady (state : State) : Prop where
  idle : (state.buf 1).busy = false
  super : superblockOf (state.data 1) = layout

theorem getRefCount_wp {Post : Nat → State → Prop} (steady : Steady free state) (ready : SuperReady state) (ref : Nat)
    (next : Post (if ref = 1 then 29 else 30) state) : FsWp free (getRefCount ref) state Post Stops := by
  unfold FsWp Wp
  intro memo allowed
  rcases allowed.counts with unread | ⟨first, second⟩
  · -- the superblock is read and its two fields are remembered
    have read : FsWp free readsb state (fun sb after => sb = layout ∧ after = state)
        (fun _ _ => False) := readsb_wp steady ready.idle ⟨ready.super, rfl⟩
    obtain ⟨sb, ⟨after, memo'⟩, ran, ⟨value, same⟩, kept⟩ := read.total allowed
    subst value
    subst same
    have counts : MemoOk free { memo' with refCount1 := 29, refCount2 := 30 } :=
      ⟨kept.recycle, kept.garbage, .inr ⟨rfl, rfl⟩⟩
    have loaded : onlyIf (memo.refCount1 = 0) (do
        let sb ← readsb
        remember fun memo => { memo with refCount1 := sb.refCount1, refCount2 := sb.refCount2 })
        (after, memo) = .ok () (after, { memo' with refCount1 := 29, refCount2 := 30 }) := by
      rw [onlyIf, if_pos unread, bind_ok ran]
      rfl
    have result : getRefCount ref (after, memo) = .ok (if ref = 1 then 29 else 30)
        (after, { memo' with refCount1 := 29, refCount2 := 30 }) := by
      refine (bind_ok rfl).trans ((bind_ok loaded).trans ((bind_ok rfl).trans ?_))
      split <;> rfl
    rw [result]
    exact ⟨next, counts⟩
  · have loaded : onlyIf (memo.refCount1 = 0) (do
        let sb ← readsb
        remember fun memo => { memo with refCount1 := sb.refCount1, refCount2 := sb.refCount2 })
        (state, memo) = .ok () (state, memo) := by
      rw [onlyIf, if_neg (by omega)]
      rfl
    have result : getRefCount ref (state, memo) = .ok (if ref = 1 then 29 else 30) (state, memo) := by
      refine (bind_ok rfl).trans ((bind_ok loaded).trans ((bind_ok rfl).trans ?_))
      split
      · rw [← first]
        rfl
      · rw [← second]
        rfl
    rw [result]
    exact ⟨next, allowed⟩

/-- The reference byte of a sector can be read and written. -/
structure RefReady (state : State) (sector : Nat) : Prop where
  super : SuperReady state
  idle : (state.buf (refSector sector)).busy = false
  bounded : sector < 2 * BSIZE

private theorem readRefByte_wp {Post : Nat → State → Prop} {ref position : Nat}
    (steady : Steady free state) (ready : SuperReady state)
    (idle : (state.buf (if ref = 1 then 29 else 30)).busy = false)
    (next : Post ((state.data (if ref = 1 then 29 else 30)).get position).toNat state) :
    FsWp free (readRefByte ref position) state Post Stops := by
  refine Wp.bind (getRefCount_wp steady ready ref ?_)
  exact read_wp steady idle (Wp.bind (brelse_hold_wp idle (Wp.pure next)))

/-- The two sectors of reference bytes hold one byte for each sector of the disk. -/
private theorem refSector_place (bounded : sector < 2 * BSIZE) :
    ∃ ref, (if ref = 1 then 29 else 30) = refSector sector ∧ getBlkRef sector = readRefByte ref (sector % BSIZE) ∧
      ∀ flag, updateBlkRef sector flag = updateRefByte ref (sector % BSIZE) flag := by
  simp only [getBlkRef, updateBlkRef, refSector, BSIZE] at *
  by_cases low : sector < 512
  · exact ⟨1, by simp [low], by simp [low, Nat.mod_eq_of_lt low], by simp [low, Nat.mod_eq_of_lt low]⟩
  · have offset : sector % 512 = sector - 512 := by omega
    have inside : sector < 512 * 2 := by omega
    exact ⟨2, by simp [low], by simp [low, inside, offset], by simp [low, inside, offset]⟩

theorem getBlkRef_wp {Post : Nat → State → Prop} (steady : Steady free state)
    (ready : RefReady state sector) (next : Post (refOf state.data sector).toNat state) :
    FsWp free (getBlkRef sector) state Post Stops := by
  obtain ⟨ref, place, reads, _⟩ := refSector_place ready.bounded
  rw [reads]
  exact readRefByte_wp steady ready.super (place ▸ ready.idle) (place ▸ next)

private theorem updateRefByte_wp {Post : Unit → State → Prop} {ref position : Nat} {flag : Int}
    (steady : Steady free state) (ready : SuperReady state)
    (idle : (state.buf (if ref = 1 then 29 else 30)).busy = false)
    (next : Post () (state.written [(if ref = 1 then 29 else 30, (state.data (if ref = 1 then 29 else 30)).set position
        (bumpRef flag ((state.data (if ref = 1 then 29 else 30)).get position)))])) :
    FsWp free (updateRefByte ref position flag) state Post Stops := by
  refine Wp.bind (getRefCount_wp steady ready ref ?_)
  refine read_wp steady idle ?_
  refine Wp.bind (bset_wp (by simp) ?_)
  refine Wp.bind (bwrite_wp (by simp) ?_)
  refine brelse_wp (by simp) ?_
  rw [State.release_diskWrite_fill_hold]
  exact next

def refWrite (blocks : Blocks) (sector : Nat) (value : Byte) : Nat × Block :=
  (refSector sector, (blocks (refSector sector)).set (sector % BSIZE) value)

theorem updateBlkRef_wp {flag : Int} (steady : Steady free state) (ready : RefReady state sector)
    (next : Post () (state.written [refWrite state.data sector (bumpRef flag (refOf state.data sector))])) :
    FsWp free (updateBlkRef sector flag) state Post Stops := by
  obtain ⟨ref, place, _, updates⟩ := refSector_place ready.bounded
  rw [updates]
  exact updateRefByte_wp steady ready.super (place ▸ ready.idle) (place ▸ next)

/-! ## Freeing a block -/

theorem log_block_wp {data : Block} (steady : Steady free state) (busy : state.log.busy = true)
    (slotIdle : state.LogRoom → (state.buf (state.logSlot sector)).busy = false)
    (apart : state.LogRoom → state.logSlot sector ≠ sector)
    (full : ¬ state.LogRoom → Stops (.panic "too big a transaction") ((state.hold sector).fill sector data))
    (next : state.LogRoom → Post () (state.logSet sector data)) :
    FsWp free (do
      bset sector data
      log_write sector
      brelse sector) (state.hold sector) Post Stops := by
  refine Wp.bind (bset_wp (by simp) ?_)
  refine Wp.bind (log_write_wp ((steady.hold _).fill ?_ _) ?_ ?_ busy full ?_)
  · simp
  · simp
  · intro room
    change (((state.hold sector).fill sector data).buf (state.logSlot sector)).busy = false
    simpa [apart room] using slotIdle room
  · intro room
    refine brelse_wp (by simp [State.logAppend]) ?_
    rw [State.release_logAppend_fill_hold]
    exact next room

theorem bfree_wp (steady : Steady free state) (ready : SuperReady state)
    (idle : (state.buf BITMAP).busy = false) (bounded : sector < BPB) (busy : state.log.busy = true)
    (slotIdle : state.LogRoom → (state.buf (state.logSlot BITMAP)).busy = false)
    (apart : state.LogRoom → state.logSlot BITMAP ≠ BITMAP)
    (unused : usedOf state.data sector = false → Stops (.panic "freeing free block") (state.hold BITMAP))
    (full : usedOf state.data sector = true → ¬ state.LogRoom → Stops (.panic "too big a transaction") ((state.hold BITMAP).fill BITMAP ((state.data BITMAP).clearBit sector)))
    (next : usedOf state.data sector = true → state.LogRoom → Post () (state.logSet BITMAP ((state.data BITMAP).clearBit sector))) :
    FsWp free (bfree sector) state Post Stops := by
  refine Wp.bind (readsb_wp steady ready.idle ?_)
  have block : BBLOCK sector (superblockOf (state.data 1)).ninodes = BITMAP := by
    rw [ready.super]
    simp only [BBLOCK, layout, IPB, BPB, BSIZE, BITMAP] at *
    omega
  have position : sector % BPB = sector := Nat.mod_eq_of_lt bounded
  simp only [block, position]
  refine read_wp steady idle ?_
  have bit : (state.data BITMAP).get (sector / 8) &&& Bytes.mask sector = 0 ↔
      usedOf state.data sector = false := Bytes.and_mask_eq_zero_iff _ _
  refine Wp.ite (fun clear => ?_) (fun set => ?_)
  · exact Wp.throw (unused (bit.mp clear))
  · have used : usedOf state.data sector = true := by
      rw [← Bool.not_eq_false]
      exact fun clear => set (bit.mpr clear)
    exact log_block_wp steady busy slotIdle apart (full used) (next used)

/-! ## Transactions around one block -/

def loggedWrites (start : Nat) (header : Block) (sector : Nat) (data : Block) : List (Nat × Block) :=
  [(start + 1, data), (start, putHead header [sector]), (sector, data),
    (start, putHead (putHead header [sector]) [])]

/-- The log is idle and located apart from the block to be logged. -/
structure LogReady (state : State) (sector : Nat) : Prop where
  unlocked : state.log.busy = false
  empty : state.log.sectors = []
  room : 1 < state.log.size
  headIdle : (state.buf state.log.start).busy = false
  slotIdle : (state.buf (state.log.start + 1)).busy = false
  idle : (state.buf sector).busy = false
  headApart : sector ≠ state.log.start
  slotApart : sector ≠ state.log.start + 1

/-- The state inside a transaction that has just begun. -/
def State.begun (state : State) : State :=
  { state with log := { state.log with busy := true } }

theorem LogReady.slot (ready : LogReady state sector) : state.begun.logSlot sector = state.log.start + 1 := by
  simp [State.logSlot, State.begun, ready.empty]

theorem LogReady.sectors (ready : LogReady state sector) (data : Block) :
    (state.begun.logSet sector data).log.sectors = [sector] := by
  simp [State.logSet, State.begun, ready.empty]

private theorem commit_logSet (ready : LogReady state sector) (data : Block) :
    (state.begun.logSet sector data).committed =
      state.written (loggedWrites state.log.start (state.data state.log.start) sector data) := by
  have headApart := ready.headApart
  have slotApart := ready.slotApart
  have header : ((state.begun.logSet sector data).buf state.log.start).data = state.data state.log.start := by
    simp only [State.logSet, ready.slot, update_of_ne headApart.symm]
    rw [update_of_ne (by omega)]
    rfl
  have logged : ((state.begun.logSet sector data).buf (state.log.start + 0 + 1)).data = data := by
    simp only [State.logSet, ready.slot, Nat.add_zero, update_of_ne slotApart.symm, update_self]
  have start : (state.begun.logSet sector data).log.start = state.log.start := rfl
  have writes : (state.begun.logSet sector data).commitWrites =
      (loggedWrites state.log.start (state.data state.log.start) sector data).tail := by
    rw [State.commitWrites]
    simp only [ready.sectors, start, header, installWrites, logged]
    rfl
  rw [State.committed, writes]
  have log : { start := state.log.start, size := state.log.size } = state.log := by
    have empty := ready.empty
    have unlocked := ready.unlocked
    cases shape : state.log
    simp_all
  simp only [State.written, List.tail_cons, loggedWrites, List.map_cons, List.map_nil,
    List.mem_cons, List.not_mem_nil, or_false, State.logSet, ready.slot, afterWrites_cons]
  congr 1
  · funext other
    by_cases isSlot : other = state.log.start + 1
    · subst isSlot
      simp [slotApart.symm]
    · by_cases isSector : other = sector
      · simp [isSector, State.begun]
      · by_cases isHead : other = state.log.start
        · simp [isHead, State.begun]
        · simp [isSlot, isSector, isHead, State.begun]
  · simp [State.begun]

theorem loggedBlock_wp {body : FsM Unit} (data : Block) (steady : Steady free state) (ready : LogReady state sector)
    (logs : ∀ After : Unit → State → Prop, After () (state.begun.logSet sector data) → FsWp free body state.begun After Stops)
    (next : Post () (state.written (loggedWrites state.log.start (state.data state.log.start) sector data))) :
    FsWp free (do
      begin_trans
      body
      commit_trans) state Post Stops := by
  refine Wp.bind (Wp.see ?_)
  rw [if_neg (by simp [ready.unlocked])]
  refine Wp.change (Wp.bind (logs _ ?_))
  have headApart := ready.headApart
  have slotApart := ready.slotApart
  have start : (state.begun.logSet sector data).log.start = state.log.start := rfl
  refine commit_trans_wp ?_ ⟨?_, ?_, ?_, ?_⟩ ?_
  · exact Steady.logSet steady
  · rw [start]
    simp only [State.logSet, ready.slot, update_of_ne headApart.symm]
    rw [update_of_ne (by omega)]
    exact ready.headIdle
  · rw [ready.sectors, start]
    simpa using headApart.symm
  · rw [ready.sectors]
    intro home member
    rw [List.mem_singleton.mp member]
    simp [State.logSet]
  · rw [ready.sectors, start]
    intro index bounded
    have first : index = 0 := by simpa using bounded
    subst first
    refine ⟨?_, by simpa using slotApart.symm⟩
    simp only [State.logSet, ready.slot, Nat.add_zero, update_of_ne slotApart.symm, update_self]
  · rw [commit_logSet ready]
    exact next

theorem LogReady.begun (ready : LogReady state sector) : state.begun.LogRoom ∧
    (state.begun.buf (state.begun.logSlot sector)).busy = false ∧ state.begun.logSlot sector ≠ sector := by
  have size := ready.room
  refine ⟨⟨?_, ?_⟩, ?_, ?_⟩
  · simp [State.begun, ready.empty]
  · simp only [State.begun, ready.empty, List.length_nil]
    omega
  · rw [ready.slot]
    exact ready.slotIdle
  · rw [ready.slot]
    exact ready.slotApart.symm

theorem freeBlock_wp (steady : Steady free state) (ready : LogReady state BITMAP)
    (superReady : SuperReady state) (bounded : sector < BPB)
    (unused : usedOf state.data sector = false → Stops (.panic "freeing free block") (state.begun.hold BITMAP))
    (next : usedOf state.data sector = true → Post () (state.written (loggedWrites state.log.start (state.data state.log.start) BITMAP ((state.data BITMAP).clearBit sector)))) :
    FsWp free (do
      begin_trans
      bfree sector
      commit_trans) state Post Stops := by
  obtain ⟨room, slotIdle, slotApart⟩ := ready.begun
  have freed : ∀ After : Unit → State → Prop, (usedOf state.data sector = true →
        After () (state.begun.logSet BITMAP ((state.data BITMAP).clearBit sector))) →
      FsWp free (bfree sector) state.begun After Stops := fun After after =>
    bfree_wp steady ⟨superReady.idle, superReady.super⟩ ready.idle bounded rfl
      (fun _ => slotIdle) (fun _ => slotApart) unused (fun _ full => absurd room full)
      (fun used _ => after used)
  cases used : usedOf state.data sector with
  | true =>
    exact loggedBlock_wp _ steady ready (fun After after => freed After fun _ => after) (next used)
  | false =>
    refine Wp.bind (Wp.see ?_)
    rw [if_neg (Bool.eq_false_iff.mp ready.unlocked)]
    refine Wp.change (Wp.bind (freed _ fun set => ?_))
    rw [used] at set
    cases set

end Specifications

end Xv6Dedup
