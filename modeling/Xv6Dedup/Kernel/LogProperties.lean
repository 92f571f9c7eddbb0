import Xv6Dedup.Kernel.Log
import Xv6Dedup.Kernel.BioProperties

/-!
# Log properties

Specifications of the log operations. Everything that reaches the disk outside
`log_write` is a list of written sectors, so the state after `write_head`,
`install_trans` and `commit_trans` is described by that list.
-/

set_option autoImplicit false

namespace Xv6Dedup

open Function

namespace State

/-- The state after sectors have been written through their buffers. -/
def written (state : State) (writes : List (Nat × Block)) : State :=
  { state with
    disk := afterWrites state.disk writes
    buf := fun sector => if sector ∈ writes.map (·.1) then
      { data := afterWrites state.disk writes sector } else state.buf sector
    trace := state.trace ++ writes }

@[simp] theorem written_nil (state : State) : state.written [] = state := by
  simp [written]

theorem written_written (state : State) (first second : List (Nat × Block)) :
    (state.written first).written second = state.written (first ++ second) := by
  simp only [written, afterWrites_append, List.append_assoc, List.map_append, List.mem_append]
  congr 1
  funext sector
  by_cases inSecond : sector ∈ second.map (·.1)
  · simp [inSecond]
  · by_cases inFirst : sector ∈ first.map (·.1)
    · simp [inSecond, inFirst, afterWrites_of_not_mem inSecond]
    · simp [inSecond, inFirst]

variable {writes : List (Nat × Block)} {sector : Nat}

theorem written_buf_of_not_mem {state : State} (absent : sector ∉ writes.map (·.1)) :
    (state.written writes).buf sector = state.buf sector :=
  if_neg absent

theorem written_disk_of_not_mem {state : State} (absent : sector ∉ writes.map (·.1)) :
    (state.written writes).disk sector = state.disk sector :=
  afterWrites_of_not_mem absent

theorem written_data_of_mem {state : State} (member : sector ∈ writes.map (·.1)) :
    ((state.written writes).buf sector).data = afterWrites state.disk writes sector := by
  simp only [written, if_pos member]

theorem release_diskWrite_fill_hold (state : State) (sector : Nat) (data : Block) :
    (((state.hold sector).fill sector data).diskWrite sector).release sector = state.written [(sector, data)] := by
  simp only [release, diskWrite, fill, hold, setBuf, written, update_self,
    update_idem, List.map_cons, List.map_nil, List.mem_singleton, afterWrites_cons,
    afterWrites_nil]
  congr 1
  funext other
  by_cases same : other = sector
  · simp [same]
  · simp [same]

/-- The log slot for a sector: the one it already has, or the next free one. -/
def logSlot (state : State) (sector : Nat) : Nat :=
  state.log.start + state.log.sectors.idxOf sector + 1

/-- The state after `log_write` of a held buffer. -/
def logAppend (state : State) (sector : Nat) : State :=
  { state with
    disk := update state.disk (state.logSlot sector) (state.buf sector).data
    buf := update (update state.buf (state.logSlot sector)
      { data := (state.buf sector).data }) sector { state.buf sector with dirty := true }
    trace := state.trace ++ [(state.logSlot sector, (state.buf sector).data)]
    log := { state.log with
      sectors := if sector ∈ state.log.sectors then state.log.sectors
        else state.log.sectors ++ [sector] } }

/-- The state after a buffer is read, overwritten, logged and released. -/
def logSet (state : State) (sector : Nat) (data : Block) : State :=
  { state with
    disk := update state.disk (state.logSlot sector) data
    buf := update (update state.buf (state.logSlot sector)
      { data := data }) sector { data := data, dirty := true }
    trace := state.trace ++ [(state.logSlot sector, data)]
    log := { state.log with
      sectors := if sector ∈ state.log.sectors then state.log.sectors
        else state.log.sectors ++ [sector] } }

theorem release_logAppend_fill_hold (state : State) (sector : Nat) (data : Block) :
    (((state.hold sector).fill sector data).logAppend sector).release sector = state.logSet sector data := by
  simp only [release, logAppend, logSet, logSlot, setBuf, fill, hold, update_self, update_idem]
  congr 1
  funext other
  by_cases same : other = sector
  · simp [same]
  · rw [update_of_ne same, update_of_ne same]
    by_cases slot : other = state.log.start + List.idxOf sector state.log.sectors + 1
    · simp [slot]
    · simp [same, slot]

def LogRoom (state : State) : Prop :=
  state.log.sectors.length < LOGSIZE ∧ state.log.sectors.length < state.log.size - 1

end State

theorem Steady.written {free : Freedom} {state : State} (steady : Steady free state)
    (writes : List (Nat × Block)) : Steady free (state.written writes) := by
  rcases steady with still | synced
  · exact .inl still
  · right
    intro sector idle clean
    by_cases member : sector ∈ writes.map (·.1)
    · exact State.written_data_of_mem member
    · rw [State.written_buf_of_not_mem member] at idle clean ⊢
      rw [State.written_disk_of_not_mem member]
      exact synced sector idle clean

theorem Steady.logSet {free : Freedom} {state : State} {sector : Nat} {data : Block}
    (steady : Steady free state) : Steady free (state.logSet sector data) := by
  rcases steady with still | synced
  · exact .inl still
  · right
    intro other idle clean
    by_cases same : other = sector
    · simp [State.logSet, same] at clean
    · by_cases slot : other = state.logSlot sector
      · subst slot
        simp [State.logSet, same]
      · simp only [State.logSet, update_of_ne same, update_of_ne slot]
          at idle clean ⊢
        exact synced other idle clean

variable {sectors : List Nat}

theorem logged_position (nodup : sectors.Nodup) {added : Nat} {position sector : Nat}
    (found : (if added ∈ sectors then sectors else sectors ++ [added])[position]? = some sector) :
    (sector = added ∧ position = sectors.idxOf added) ∨
      (sector ≠ added ∧ position ≠ sectors.idxOf added ∧ sectors[position]? = some sector) := by
  by_cases member : added ∈ sectors
  · rw [if_pos member] at found
    obtain ⟨inside, value⟩ := List.getElem?_eq_some_iff.mp found
    by_cases same : sector = added
    · left
      refine ⟨same, ?_⟩
      rw [← same, ← value]
      exact (nodup.idxOf_getElem position inside).symm
    · right
      refine ⟨same, fun equal => same ?_, found⟩
      rw [← value]
      simp only [equal]
      exact List.getElem_idxOf (List.idxOf_lt_length_of_mem member)
  · rw [if_neg member] at found
    have last : sectors.idxOf added = sectors.length := List.idxOf_eq_length member
    rcases Nat.lt_or_ge position sectors.length with inside | past
    · rw [List.getElem?_append_left inside] at found
      right
      refine ⟨fun same => member (same ▸ List.mem_of_getElem? found), by omega, found⟩
    · rw [List.getElem?_append_right past] at found
      obtain ⟨bounded, value⟩ := List.getElem?_eq_some_iff.mp found
      simp only [List.length_singleton, Nat.lt_one_iff] at bounded
      simp only [List.getElem_singleton] at value
      exact .inl ⟨value.symm, by omega⟩

/-! ## The header block -/

private theorem word_putSectors_before (block : Block) (index : Nat) (sectors : List Nat)
    {offset : Nat} (before : offset + 4 ≤ 4 + 4 * index) :
    (putSectors block index sectors).word offset = block.word offset := by
  induction sectors generalizing block index with
  | nil => rfl
  | cons sector rest ih =>
    rw [putSectors, ih _ _ (by omega)]
    exact Bytes.word_putWord_other _ (.inl before)

private theorem word_putSectors (block : Block) (index : Nat) (sectors : List Nat)
    (fits : index + sectors.length < 128) (small : ∀ sector ∈ sectors, sector < 2 ^ 32)
    {position : Nat} (inside : position < sectors.length) :
    (putSectors block index sectors).word (4 + 4 * (index + position)) = sectors.get ⟨position, inside⟩ := by
  induction sectors generalizing block index position with
  | nil => simp at inside
  | cons sector rest ih =>
    simp only [List.length_cons] at fits inside
    cases position with
    | zero =>
      rw [putSectors, word_putSectors_before _ _ _ (by omega)]
      exact Bytes.word_putWord_same _ (by simp only [BSIZE]; omega) (small sector List.mem_cons_self)
    | succ position =>
      have later := ih (block.putWord (4 + 4 * index) sector) (index + 1) (by omega)
        (fun other member => small other (List.mem_cons_of_mem _ member))
        (Nat.lt_of_succ_lt_succ inside)
      rw [putSectors, show index + (position + 1) = index + 1 + position by omega, later]
      rfl

theorem headSectors_putHead (block : Block) (sectors : List Nat)
    (fits : sectors.length < 128) (small : ∀ sector ∈ sectors, sector < 2 ^ 32) :
    headSectors (putHead block sectors) = sectors := by
  have count : (putHead block sectors).word 0 = sectors.length := by
    rw [putHead, word_putSectors_before _ _ _ (by omega)]
    exact Bytes.word_putWord_same _ (by decide) (by omega)
  apply List.ext_get
  · simp [headSectors, count]
  · intro position inside bounded
    have stored := word_putSectors (block.putWord 0 sectors.length) 0 sectors (by omega) small bounded
    simpa [headSectors, putHead] using stored

theorem headSectors_putHead_nil (block : Block) : headSectors (putHead block []) = [] :=
  headSectors_putHead block [] (by decide) (by simp)

/-- The writes that install logged contents at their home sectors. -/
def installWrites (contents : Nat → Block) : (tail : Nat) → List Nat → List (Nat × Block)
  | _, [] => []
  | tail, sector :: rest => (sector, contents tail) :: installWrites contents (tail + 1) rest

@[simp] theorem installWrites_map_fst (contents : Nat → Block) (tail : Nat)
    (sectors : List Nat) : (installWrites contents tail sectors).map (·.1) = sectors := by
  induction sectors generalizing tail with
  | nil => rfl
  | cons sector rest ih => simp [installWrites, ih]

theorem afterWrites_installWrites {contents goal : Nat → Block} {tail : Nat} {disk : Nat → Block}
    (logged : ∀ position sector, sectors[position]? = some sector →
      contents (tail + position) = goal sector) {sector : Nat} (member : sector ∈ sectors) :
    afterWrites disk (installWrites contents tail sectors) sector = goal sector := by
  induction sectors generalizing tail disk with
  | nil => simp at member
  | cons home rest ih =>
    simp only [installWrites, afterWrites_cons]
    by_cases later : sector ∈ rest
    · refine ih (fun position other found => ?_) later
      have stored := logged (position + 1) other (by simpa using found)
      rwa [show tail + (position + 1) = tail + 1 + position by omega] at stored
    · have same : sector = home := by simpa [later] using member
      subst same
      rw [afterWrites_of_not_mem (by rwa [installWrites_map_fst]), update_self]
      exact logged 0 sector (by simp)

/-- The writes of `commit_trans`: header, home sectors, empty header. -/
def State.commitWrites (state : State) : List (Nat × Block) :=
  if state.log.sectors = [] then []
  else
    let header := putHead (state.buf state.log.start).data state.log.sectors
    (state.log.start, header) :: installWrites (fun index => (state.buf (state.log.start + index + 1)).data) 0
        state.log.sectors ++
      [(state.log.start, putHead header [])]

/-- The state after `commit_trans`. -/
def State.committed (state : State) : State :=
  { state.written state.commitWrites with log := { state.log with sectors := [], busy := false } }

section Specifications

variable {free : Freedom} {state : State} {Stops : Stop → State → Prop} {sector : Nat} {Post : Unit → State → Prop}

theorem log_write_wp (steady : Steady free state) (held : (state.buf sector).busy = true)
    (slotIdle : state.LogRoom → (state.buf (state.logSlot sector)).busy = false) (busy : state.log.busy = true)
    (full : ¬ state.LogRoom → Stops (.panic "too big a transaction") state)
    (next : state.LogRoom → Post () (state.logAppend sector)) : FsWp free (log_write sector) state Post Stops := by
  refine Wp.see ?_
  refine Wp.ite (fun tooBig => ?_) (fun fits => ?_)
  · refine Wp.throw (full ?_)
    intro room
    rcases tooBig with tooBig | tooBig
    · exact Nat.not_lt.mpr tooBig room.1
    · exact Nat.not_lt.mpr tooBig room.2
  · have room : state.LogRoom := by
      constructor
      · exact Nat.not_le.mp fun tooBig => fits (.inl tooBig)
      · exact Nat.not_le.mp fun tooBig => fits (.inr tooBig)
    have idle := slotIdle room
    have apart : sector ≠ state.logSlot sector := by
      intro same
      rw [← same, held] at idle
      cases idle
    rw [if_neg (by simp [busy])]
    refine Wp.bind (bread_wp steady idle ?_)
    have heldAfter : (((state.hold (state.logSlot sector)).buf sector)).busy = true := by
      simpa [apart] using held
    refine Wp.bind (bdata_wp heldAfter ?_)
    refine Wp.bind (bset_wp (by simp) ?_)
    refine Wp.bind (bwrite_wp (by simp) ?_)
    refine Wp.bind (brelse_wp (by simp) ?_)
    refine Wp.set (Wp.change ?_)
    have finished := next room
    convert finished using 1
    have slotShape : state.log.start + List.idxOf sector state.log.sectors + 1 = state.logSlot sector := rfl
    rw [slotShape, State.release_diskWrite_fill_hold]
    have dataShape : ((state.hold (state.logSlot sector)).buf sector).data = (state.buf sector).data := by
      simp [apart]
    rw [dataShape]
    simp only [State.logAppend, State.setBuf, State.written, List.map_cons, List.map_nil,
      List.mem_singleton, afterWrites_cons, afterWrites_nil, apart, if_false]
    congr 1
    · funext other
      by_cases same : other = sector
      · simp [same]
      · rw [update_of_ne same, update_of_ne same]
        by_cases slot : other = state.logSlot sector <;> simp [slot]
    · congr 1
      by_cases member : sector ∈ state.log.sectors
      · have before := List.idxOf_lt_length_of_mem member
        simp [member, Nat.ne_of_lt before]
      · simp [member]

theorem write_head_wp (steady : Steady free state) (idle : (state.buf state.log.start).busy = false)
    (next : Post () (state.written [(state.log.start, putHead (state.buf state.log.start).data state.log.sectors)])) :
    FsWp free write_head state Post Stops := by
  refine Wp.see ?_
  refine Wp.bind (bread_wp steady idle ?_)
  refine Wp.bind (bdata_wp (by simp) ?_)
  refine Wp.bind (bset_wp (by simp) ?_)
  refine Wp.bind (bwrite_wp (by simp) ?_)
  refine brelse_wp (by simp) ?_
  rw [State.release_diskWrite_fill_hold]
  simpa using next

theorem installFrom_wp {start tail : Nat} (contents : Nat → Block) (steady : Steady free state)
    (homes : ∀ home ∈ sectors, (state.buf home).busy = false)
    (slots : ∀ index, tail ≤ index → index < tail + sectors.length → (state.buf (start + index + 1)).busy = false ∧
        (state.buf (start + index + 1)).data = contents index ∧
        start + index + 1 ∉ sectors) (next : Post () (state.written (installWrites contents tail sectors))) :
    FsWp free (installFrom start tail sectors) state Post Stops := by
  induction sectors generalizing state tail with
  | nil => exact Wp.pure (by simpa [installWrites] using next)
  | cons home rest ih =>
    obtain ⟨slotIdle, slotData, slotApart⟩ := slots tail (Nat.le_refl _) (by simp)
    have homeIdle := homes home List.mem_cons_self
    have apart : home ≠ start + tail + 1 := fun same => slotApart (by simp [same])
    refine Wp.bind (bread_wp steady slotIdle ?_)
    refine Wp.bind (bread_wp (steady.hold _) (by simpa [apart] using homeIdle) ?_)
    refine Wp.bind (bdata_wp (by simp [apart.symm]) ?_)
    refine Wp.bind (bset_wp (by simp) ?_)
    refine Wp.bind (bwrite_wp (by simp) ?_)
    refine Wp.bind (brelse_wp (by simp [apart.symm]) ?_)
    refine Wp.bind (brelse_wp (by simp [State.hold, State.fill, State.diskWrite,
      State.release, State.setBuf_buf, apart]) ?_)
    have shape : ∀ after : State, after = state.written [(home, contents tail)] →
        FsWp free (installFrom start (tail + 1) rest) after Post Stops := by
      rintro after rfl
      have kept (other : Nat) (different : other ≠ home) :
          (state.written [(home, contents tail)]).buf other = state.buf other :=
        State.written_buf_of_not_mem (by simpa using different)
      refine ih (steady.written _) ?_ ?_ ?_
      · intro other member
        by_cases same : other = home
        · simp [State.written, same]
        · rw [kept other same]
          exact homes other (List.mem_cons_of_mem _ member)
      · intro index lower upper
        obtain ⟨idle, data, absent⟩ := slots index (by omega) (by simp only [List.length_cons]; omega)
        have different : start + index + 1 ≠ home := fun same => absent (by simp [same])
        rw [kept _ different]
        exact ⟨idle, data, fun member => absent (List.mem_cons_of_mem _ member)⟩
      · rw [State.written_written]
        exact next
    apply shape
    simp only [State.release, State.diskWrite, State.fill, State.hold, State.setBuf,
      State.written, List.map_cons, List.map_nil, List.mem_singleton, afterWrites_cons,
      afterWrites_nil, update_self, update_of_ne apart,
      update_of_ne apart.symm, slotData]
    congr 1
    funext other
    by_cases same : other = home
    · simp [same]
    · by_cases slot : other = start + tail + 1
      · cases buffer : state.buf (start + tail + 1)
        simp_all
      · simp [same, slot]

/-- The log area and the logged sectors are idle and apart from each other. -/
structure CommitReady (state : State) : Prop where
  headIdle : (state.buf state.log.start).busy = false
  headApart : state.log.start ∉ state.log.sectors
  homes : ∀ home ∈ state.log.sectors, (state.buf home).busy = false
  slots : ∀ index < state.log.sectors.length, (state.buf (state.log.start + index + 1)).busy = false ∧
      state.log.start + index + 1 ∉ state.log.sectors

/-- The four writing steps of `commit_trans` and of recovery: a header that is
already in the buffer, the home sectors, and the empty header. -/
theorem install_clear_wp (steady : Steady free state) (ready : CommitReady state) (next : Post () { state.written
      (installWrites (fun index => (state.buf (state.log.start + index + 1)).data) 0 state.log.sectors ++
          [(state.log.start, putHead (state.buf state.log.start).data [])]) with
      log := { state.log with sectors := [] } }) :
    FsWp free (do install_trans; clearHead; write_head) state Post Stops := by
  refine Wp.bind (Wp.see ?_)
  refine installFrom_wp (fun index => (state.buf (state.log.start + index + 1)).data) steady ready.homes ?_ ?_
  · intro index _ upper
    obtain ⟨idle, absent⟩ := ready.slots index (by simpa using upper)
    exact ⟨idle, rfl, absent⟩
  · have headKept : ∀ contents, (state.written (installWrites contents 0
        state.log.sectors)).buf state.log.start = state.buf state.log.start := by
      intro contents
      apply State.written_buf_of_not_mem
      rw [installWrites_map_fst]
      exact ready.headApart
    refine Wp.set ?_
    refine write_head_wp (steady.written _) ?_ ?_
    · change ((state.written _).buf state.log.start).busy = false
      rw [headKept]
      exact ready.headIdle
    · convert next using 1
      rw [← State.written_written]
      simp only [State.written] at headKept ⊢
      rw [headKept]
      rfl

theorem commit_trans_wp (steady : Steady free state) (ready : CommitReady state)
    (next : Post () state.committed) : FsWp free commit_trans state Post Stops := by
  refine Wp.see (Wp.bind (Wp.onlyIf ?_ ?_))
  · intro logged
    have nonempty : state.log.sectors ≠ [] := List.length_pos_iff.mp logged
    refine Wp.bind (write_head_wp steady ready.headIdle ?_)
    have kept (other : Nat) (header : Block) (different : other ≠ state.log.start) :
        (state.written [(state.log.start, header)]).buf other = state.buf other :=
      State.written_buf_of_not_mem (by simpa using different)
    refine install_clear_wp (steady.written _) ⟨?_, ready.headApart, ?_, ?_⟩ ?_
    · simp [State.written]
    · intro home member
      rw [kept home _ fun same => ready.headApart (same ▸ member)]
      exact ready.homes home member
    · intro index inRange
      obtain ⟨idle, absent⟩ := ready.slots index inRange
      refine ⟨?_, absent⟩
      change ((state.written _).buf (state.log.start + index + 1)).busy = false
      rw [kept _ _ (by omega)]
      exact idle
    · refine Wp.change ?_
      convert next using 1
      have slotKept : (fun index => ((state.written [(state.log.start,
          putHead (state.buf state.log.start).data state.log.sectors)]).buf (state.log.start + index + 1)).data) =
          fun index => (state.buf (state.log.start + index + 1)).data := by
        funext index
        rw [kept _ _ (by omega)]
      have headData : ((state.written [(state.log.start,
          putHead (state.buf state.log.start).data state.log.sectors)]).buf state.log.start).data =
          putHead (state.buf state.log.start).data state.log.sectors := by
        simp [State.written]
      have logKept : (state.written [(state.log.start,
          putHead (state.buf state.log.start).data state.log.sectors)]).log = state.log := rfl
      rw [logKept, slotKept, headData, State.written_written]
      simp only [State.committed, State.commitWrites, nonempty, if_false, List.cons_append, List.nil_append]
  · intro nothing
    have empty : state.log.sectors = [] := by
      simpa using nothing
    refine Wp.change ?_
    simpa [State.committed, State.commitWrites, empty] using next

end Specifications

end Xv6Dedup
