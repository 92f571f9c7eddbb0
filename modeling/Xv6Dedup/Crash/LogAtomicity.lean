import Xv6Dedup.Crash.Recovery

/-!
# Crash atomicity of the log

A transaction logs blocks and commits. Whenever the machine crashes, in the
transaction or in any of the recoveries that follow, a recovery that completes
leaves all home blocks as before the transaction, or all as the transaction
left them; the header write decides which.
-/

set_option autoImplicit false

namespace Xv6Dedup

open Function Program

/-- The `log_write` calls of a transaction, each of a buffer with new contents. -/
def logBlocks : List (Nat × Block) → FsM Unit
  | [] => pure ()
  | (sector, data) :: rest => do
    let b ← bread sector
    bset b data
    log_write b
    brelse b
    logBlocks rest

def transaction (updates : List (Nat × Block)) : FsM Unit := do
  begin_trans
  logBlocks updates
  commit_trans

/-- Between transactions nothing is cached that differs from the disk, and the
log is empty. -/
structure LogIdle (state : State) : Prop where
  cached : ∀ sector, state.buf sector = { data := state.disk sector }
  unlogged : state.log.sectors = []
  header : headSectors (state.disk state.log.start) = []
  unlocked : state.log.busy = false
  room : 0 < state.log.size

/-- Only log slots have been written since `initial`. -/
def SlotWrites (initial state : State) : Prop :=
  ∃ writes, state.trace = initial.trace ++ writes ∧ state.disk = afterWrites initial.disk writes ∧
    ∀ write ∈ writes, initial.log.start < write.1 ∧ write.1 < initial.log.start + initial.log.size

/-- The state of a transaction after the `log_write`s in `logged`. -/
structure Logging (initial : State) (logged : List (Nat × Block)) (state : State) : Prop where
  steady : Steady .full state
  idle : ∀ sector, (state.buf sector).busy = false
  area : ∀ sector, ¬ OutsideLog initial.log.start initial.log.size sector →
    state.buf sector = { data := state.disk sector }
  log : state.log = { initial.log with busy := true, sectors := state.log.sectors }
  short : state.log.sectors.length ≤ LOGSIZE
  fits : state.log.sectors.length < initial.log.size
  absorbed : state.log.sectors.length ≤ logged.length
  nodup : state.log.sectors.Nodup
  named : ∀ sector, sector ∈ state.log.sectors ↔ sector ∈ logged.map (·.1)
  slots : ∀ position sector, state.log.sectors[position]? = some sector →
    state.disk (initial.log.start + position + 1) = afterWrites initial.disk logged sector
  writes : SlotWrites initial state

/-- What is not in the transaction is cached as it is on the disk. -/
def State.Settled (state : State) : Prop :=
  ∀ sector, sector ∉ state.log.sectors → state.buf sector = { data := state.disk sector }

/-! ## Logging a block -/

section Logging

variable {initial state : State} {logged : List (Nat × Block)} {sector : Nat}

theorem State.Settled.logSet (settled : state.Settled) (sector : Nat) (data : Block) :
    (state.logSet sector data).Settled := by
  intro other unlogged
  have different : other ≠ sector := by
    rintro rfl
    simp only [State.logSet] at unlogged
    split at unlogged <;> simp_all
  simp only [State.logSet, update_of_ne different, update_apply] at unlogged ⊢
  split
  · rfl
  · refine settled other fun member => unlogged ?_
    split <;> simp [member]

theorem Logging.homes {Home : Nat → Prop} (logging : Logging initial logged state)
    (homes : ∀ update ∈ logged, Home update.1) (home : Nat) (member : home ∈ state.log.sectors) : Home home := by
  obtain ⟨update, included, rfl⟩ := List.mem_map.mp ((logging.named home).mp member)
  exact homes update included

theorem Logging.slot_inside (logging : Logging initial logged state) (room : state.LogRoom) (sector : Nat) :
    initial.log.start < state.logSlot sector ∧ state.logSlot sector < initial.log.start + initial.log.size := by
  have start : state.log.start = initial.log.start := by rw [logging.log]
  have size : state.log.size = initial.log.size := by rw [logging.log]
  have bounded : state.log.sectors.idxOf sector ≤ state.log.sectors.length :=
    List.idxOf_le_length
  have free := room.2
  rw [State.logSlot]
  omega

theorem Logging.logSet (logging : Logging initial logged state) (room : state.LogRoom)
    (outside : OutsideLog initial.log.start initial.log.size sector) (data : Block) :
    Logging initial (logged ++ [(sector, data)]) (state.logSet sector data) := by
  have placed := logging.slot_inside room sector
  have start : state.log.start = initial.log.start := by rw [logging.log]
  have size : state.log.size = initial.log.size := by rw [logging.log]
  have count : (state.logSet sector data).log.sectors.length ≤ state.log.sectors.length + 1 := by
    simp only [State.logSet]
    split <;> simp
  refine ⟨?_, ?_, ?_, ?_, ?_, ?_, ?_, ?_, ?_, ?_, ?_⟩
  · exact logging.steady.logSet
  · intro other
    simp only [State.logSet, update_apply]
    split
    · rfl
    · split
      · rfl
      · exact logging.idle other
  · intro other inside
    have different : other ≠ sector := fun same => inside (same ▸ outside)
    simp only [State.logSet, update_of_ne different, update_apply]
    split
    · rfl
    · exact logging.area other inside
  · simp only [State.logSet]
    rw [logging.log]
  · have free := room.1
    omega
  · have free := room.2
    omega
  · have before := logging.absorbed
    rw [List.length_append, List.length_singleton]
    omega
  · simp only [State.logSet]
    split
    · exact logging.nodup
    · rename_i absent
      exact List.nodup_append.mpr ⟨logging.nodup, List.nodup_singleton _, by
        intro first member second last
        rw [List.mem_singleton.mp last]
        exact fun same => absent (same ▸ member)⟩
  · intro other
    simp only [State.logSet, List.map_append, List.map_cons, List.map_nil, List.mem_append,
      List.mem_singleton, ← logging.named other]
    split
    · rename_i member
      exact ⟨.inl, fun either => either.elim id fun same => same ▸ member⟩
    · rw [List.mem_append, List.mem_singleton]
  · intro position other found
    rw [afterWrites_append, afterWrites_cons, afterWrites_nil]
    have slotShape : state.logSlot sector =
        initial.log.start + state.log.sectors.idxOf sector + 1 := by rw [State.logSlot, start]
    simp only [State.logSet, slotShape]
    rcases logged_position logging.nodup found with ⟨rfl, rfl⟩ | ⟨different, elsewhere, before⟩
    · rw [update_self, update_self]
    · rw [update_of_ne different, update_of_ne (by omega)]
      exact logging.slots position other before
  · obtain ⟨writes, trace, disk, slots⟩ := logging.writes
    refine ⟨writes ++ [(state.logSlot sector, data)], ?_, ?_, ?_⟩
    · simp [State.logSet, trace]
    · simp [State.logSet, disk, afterWrites_append]
    · intro write member
      rcases List.mem_append.mp member with earlier | last
      · exact slots write earlier
      · rw [List.mem_singleton.mp last]
        exact placed

def TooMany (initial : State) (updates : List (Nat × Block)) : Prop :=
  LOGSIZE < updates.length ∨ initial.log.size ≤ updates.length

theorem logBlocks_wp (updates : List (Nat × Block)) (logging : Logging initial logged state) (settled : state.Settled)
    (outside : ∀ update ∈ updates, OutsideLog initial.log.start initial.log.size update.1) :
    FsWp .full (logBlocks updates) state (fun _ next => Logging initial (logged ++ updates) next ∧ next.Settled)
      (fun _ next => SlotWrites initial next ∧ TooMany initial (logged ++ updates)) := by
  induction updates generalizing state logged with
  | nil => exact Wp.pure (by simpa using ⟨logging, settled⟩)
  | cons update rest ih =>
    obtain ⟨sector, data⟩ := update
    have placed := outside _ List.mem_cons_self
    refine Wp.bind (bread_wp logging.steady (logging.idle sector) ?_)
    refine Wp.bind (bset_wp (by simp) ?_)
    have busy : state.log.busy = true := by rw [logging.log]
    refine Wp.bind (log_write_wp ((logging.steady.hold _).fill ?_ _) ?_ ?_ busy ?_ ?_)
    · simp
    · simp
    · intro room
      have inside := logging.slot_inside room sector
      have apart : state.logSlot sector ≠ sector := by
        rcases placed with before | after <;> omega
      change (((state.hold sector).fill sector data).buf (state.logSlot sector)).busy = false
      simpa [apart] using logging.idle _
    · intro full
      refine ⟨logging.writes, ?_⟩
      have counted := logging.absorbed
      have size : state.log.size = initial.log.size := by rw [logging.log]
      change ¬ (state.log.sectors.length < LOGSIZE ∧ state.log.sectors.length < state.log.size - 1) at full
      simp only [TooMany, List.length_append, List.length_cons]
      omega
    · intro room
      refine Wp.bind (brelse_wp (by simp [State.logAppend]) ?_)
      rw [State.release_logAppend_fill_hold]
      have later := ih (logging.logSet room placed data) (settled.logSet sector data)
        fun other member => outside other (List.mem_cons_of_mem _ member)
      simpa using later

/-! ## Committing -/

theorem Logging.commitReady (logging : Logging initial logged state)
    (outside : ∀ update ∈ logged, OutsideLog initial.log.start initial.log.size update.1) : CommitReady state := by
  have start : state.log.start = initial.log.start := by rw [logging.log]
  have fits := logging.fits
  have homesOutside := logging.homes outside
  refine ⟨logging.idle _, ?_, fun home _ => logging.idle home, ?_⟩
  · intro member
    rcases homesOutside _ member with before | after <;> omega
  · intro index bounded
    refine ⟨logging.idle _, fun member => ?_⟩
    rcases homesOutside _ member with before | after <;> omega

private theorem installWrites_congr {first second : Nat → Block} {tail : Nat} {sectors : List Nat}
    (same : ∀ index, tail ≤ index → index < tail + sectors.length → first index = second index) :
    installWrites first tail sectors = installWrites second tail sectors := by
  induction sectors generalizing tail with
  | nil => rfl
  | cons home rest ih =>
    simp only [installWrites]
    rw [same tail (Nat.le_refl _) (by simp), ih]
    intro index lower upper
    exact same index (by omega) (by simp only [List.length_cons]; omega)

private def commitHeader (initial state : State) : Block :=
  putHead (initial.disk initial.log.start) state.log.sectors

theorem SlotWrites.disk_outside (slotWrites : SlotWrites initial state)
    (elsewhere : sector ≤ initial.log.start ∨ initial.log.start + initial.log.size ≤ sector) :
    state.disk sector = initial.disk sector := by
  obtain ⟨writes, _, disk, slots⟩ := slotWrites
  rw [disk]
  refine afterWrites_of_not_mem fun member => ?_
  obtain ⟨write, included, rfl⟩ := List.mem_map.mp member
  have placed := slots write included
  omega

private theorem Logging.commitWrites_eq (logging : Logging initial logged state)
    (small : ∀ sector ∈ state.log.sectors, sector < 2 ^ 32) (nonempty : state.log.sectors ≠ []) :
    headSectors (commitHeader initial state) = state.log.sectors ∧
    state.commitWrites = (initial.log.start, commitHeader initial state) :: recoveryWrites initial.log.start
        (Function.update state.disk initial.log.start (commitHeader initial state)) := by
  have start : state.log.start = initial.log.start := by rw [logging.log]
  have fits := logging.fits
  have short := logging.short
  have header : headSectors (commitHeader initial state) = state.log.sectors :=
    headSectors_putHead _ _ (by simp only [LOGSIZE] at short; omega) small
  refine ⟨header, ?_⟩
  have headData : (state.buf initial.log.start).data = initial.disk initial.log.start := by
    rw [logging.area _ (by rintro (before | after) <;> omega)]
    exact logging.writes.disk_outside (.inl (Nat.le_refl _))
  simp only [State.commitWrites, nonempty, if_false, start, headData, recoveryWrites,
    update_self, header, List.cons_append]
  congr 2
  apply installWrites_congr
  intro index _ upper
  rw [update_of_ne (by omega), logging.area _ (by rintro (before | after) <;> omega)]

theorem Logging.unlogged (logging : Logging initial logged state)
    (placed : OutsideLog initial.log.start initial.log.size sector) (absent : sector ∉ state.log.sectors) :
    state.disk sector = afterWrites initial.disk logged sector := by
  rw [afterWrites_of_not_mem fun member => absent ((logging.named sector).mpr member)]
  exact logging.writes.disk_outside (Or.imp_left Nat.le_of_lt placed)

theorem Logging.recoverable (logging : Logging initial logged state)
    (outside : ∀ update ∈ logged, OutsideLog initial.log.start initial.log.size update.1)
    (header : headSectors (commitHeader initial state) = state.log.sectors) :
    Recoverable initial.log.start initial.log.size (afterWrites initial.disk logged)
      (Function.update state.disk initial.log.start (commitHeader initial state)) := by
  have fits := logging.fits
  refine ⟨⟨?_, ?_⟩, ?_, ?_⟩
  all_goals simp only [update_self, header]
  · exact logging.homes outside
  · exact fits
  · intro position home found
    rw [update_of_ne (by omega)]
    exact logging.slots position home found
  · intro home placed absent
    have elsewhere : home ≠ initial.log.start := by
      rintro rfl
      rcases placed with before | after <;> omega
    rw [update_of_ne elsewhere]
    exact logging.unlogged placed absent

end Logging

/-! ## Crashes -/

/-- The sector writes of a transaction, up to where it returned or stopped. -/
def transactionWrites (updates : List (Nat × Block)) (state : State) (memo : Memo) : List (Nat × Block) :=
  (endState (transaction updates (state, memo))).trace.drop state.trace.length

/-- A header that names at least one sector has been written. -/
def HeaderWritten (start : Nat) (writes : List (Nat × Block)) : Prop :=
  ∃ write ∈ writes, write.1 = start ∧ headSectors write.2 ≠ []

theorem LogIdle.logging {state : State} (idle : LogIdle state) :
    Logging state [] { state with log := { state.log with busy := true } } where
  steady := .inr fun sector _ _ => by simp [idle.cached]
  idle := fun sector => by simp [idle.cached]
  area := fun sector _ => idle.cached sector
  log := rfl
  short := by simp [idle.unlogged]
  fits := by simpa [idle.unlogged] using idle.room
  absorbed := by simp [idle.unlogged]
  nodup := by simp [idle.unlogged]
  named := by simp [idle.unlogged]
  slots := by simp [idle.unlogged]
  writes := ⟨[], by simp, rfl, by simp⟩

variable {updates : List (Nat × Block)}

theorem transaction_wp {state : State} (idle : LogIdle state)
    (outside : ∀ update ∈ updates, OutsideLog state.log.start state.log.size update.1) :
    FsWp .full (transaction updates) state (fun _ next => ∃ committing, Logging state updates committing ∧
        committing.Settled ∧ next = committing.committed)
      (fun _ next => SlotWrites state next ∧ TooMany state updates) := by
  refine Wp.bind (Wp.see ?_)
  rw [if_neg (by simp [idle.unlocked])]
  refine Wp.change (Wp.seq (logBlocks_wp updates idle.logging (fun sector _ => idle.cached sector) outside) ?_)
  rintro _ committing ⟨logging, settled⟩
  exact commit_trans_wp logging.steady (logging.commitReady outside) ⟨committing, logging, settled, rfl⟩

variable {memo : Memo}

theorem transaction_returns {state : State} (idle : LogIdle state)
    (outside : ∀ update ∈ updates, OutsideLog state.log.start state.log.size update.1)
    (short : updates.length ≤ LOGSIZE) (fits : updates.length < state.log.size) (allowed : MemoOk .full memo) :
    ∃ next, transaction updates (state, memo) = .ok () next := by
  have few : ¬ TooMany state updates := by
    rintro (many | many) <;> omega
  obtain ⟨_, next, ran, _⟩ := ((transaction_wp idle outside).mono (fun _ _ held => held)
    fun _ _ stopped => few stopped.2).total allowed
  exact ⟨next, ran⟩

/-- What a transaction has written is writes to log slots, followed by nothing
or by the writes of the commit. -/
private theorem transactionWrites_shape {state : State} (idle : LogIdle state)
    (outside : ∀ update ∈ updates, OutsideLog state.log.start state.log.size update.1) (allowed : MemoOk .full memo) :
    ∃ reached, SlotWrites state reached ∧
      (transactionWrites updates state memo = reached.trace.drop state.trace.length ∨
        Logging state updates reached ∧ transactionWrites updates state memo =
          reached.trace.drop state.trace.length ++ reached.commitWrites) := by
  cases ran : transaction updates (state, memo) with
  | ok value next =>
    obtain ⟨committing, logging, _, same⟩ := ((transaction_wp idle outside).returned allowed ran).1
    obtain ⟨writes, slotTrace, _, _⟩ := logging.writes
    refine ⟨committing, logging.writes, .inr ⟨logging, ?_⟩⟩
    simp [transactionWrites, ran, endState, same, State.committed, State.written, slotTrace]
  | error reason next =>
    refine ⟨next.1, ((transaction_wp idle outside).stopped allowed ran).1, .inl ?_⟩
    rw [transactionWrites, ran]
    rfl

def CrashOutcome (state : State) (updates leading : List (Nat × Block)) : Prop :=
  (HeaderWritten state.log.start leading ∧
    Recoverable state.log.start state.log.size (afterWrites state.disk updates) (afterWrites state.disk leading)) ∨
  (¬ HeaderWritten state.log.start leading ∧
    Recoverable state.log.start state.log.size state.disk (afterWrites state.disk leading))

private theorem crashOutcome_of_slots {state : State} {writes : List (Nat × Block)} (idle : LogIdle state)
    (slots : ∀ write ∈ writes, state.log.start < write.1 ∧ write.1 < state.log.start + state.log.size) :
    CrashOutcome state updates writes := by
  have room := idle.room
  have reached : SlotWrites state { state with
      trace := state.trace ++ writes, disk := afterWrites state.disk writes } := ⟨writes, rfl, rfl, slots⟩
  refine .inr ⟨?_, Recoverable.of_empty_header ?_ room ?_⟩
  · rintro ⟨write, member, same, _⟩
    have placed := slots write member
    omega
  · exact (congrArg headSectors (reached.disk_outside (.inl (Nat.le_refl _)))).trans idle.header
  · exact fun sector placed => reached.disk_outside (Or.imp_left Nat.le_of_lt placed)

theorem transactionWrites_take {state : State} (idle : LogIdle state)
    (outside : ∀ update ∈ updates, OutsideLog state.log.start state.log.size update.1 ∧ update.1 < 2 ^ 32)
    (allowed : MemoOk .full memo) (crash : Nat) :
    CrashOutcome state updates ((transactionWrites updates state memo).take crash) := by
  have placed : ∀ update ∈ updates, OutsideLog state.log.start state.log.size update.1 :=
    fun update member => (outside update member).1
  obtain ⟨reached, slotWrites, shape⟩ := transactionWrites_shape idle placed allowed
  obtain ⟨writes, trace, disk, slots⟩ := slotWrites
  rw [trace, List.drop_left] at shape
  have leadingSlots : ∀ count, CrashOutcome state updates (writes.take count) := fun count =>
    crashOutcome_of_slots idle fun write member => slots write (List.mem_of_mem_take member)
  rcases shape with stopped | ⟨logging, committed⟩
  · rw [stopped]
    exact leadingSlots crash
  · rw [committed]
    by_cases empty : reached.log.sectors = []
    · rw [State.commitWrites, if_pos empty, List.append_nil]
      exact leadingSlots crash
    · have small : ∀ sector ∈ reached.log.sectors, sector < 2 ^ 32 :=
        logging.homes fun update member => (outside update member).2
      obtain ⟨header, commitWrites⟩ := logging.commitWrites_eq small empty
      rcases take_append_cases writes reached.commitWrites crash with
        ⟨_, leading⟩ | ⟨past, leading⟩
      · rw [leading]
        exact leadingSlots crash
      · obtain ⟨count, steps⟩ := Nat.exists_eq_add_of_lt past
        rw [leading, commitWrites,
          show crash - writes.length = count + 1 by omega, List.take_succ_cons]
        -- from the header write on, the disk is one that recovery completes
        refine .inl ⟨⟨(state.log.start, commitHeader state reached), by simp, rfl, ?_⟩, ?_⟩
        · simpa only [header] using empty
        rw [afterWrites_append, ← disk]
        exact (logging.recoverable placed header).take_recoveryWrites count

/-- Crash atomicity: a crash anywhere in the transaction, then any number of
crashes in recovery. A recovery that follows completes and leaves every home
sector as the transaction's last `log_write` of it, if a non-empty header had
been written, and as before the transaction otherwise. -/
theorem transaction_crash_atomic {state : State} (updates : List (Nat × Block)) (crash : Nat)
    {crashed : Nat → Block} {memo rebootMemo : Memo} (idle : LogIdle state)
    (outside : ∀ update ∈ updates, OutsideLog state.log.start state.log.size update.1 ∧ update.1 < 2 ^ 32)
    (allowed : MemoOk .full memo) (rebootAllowed : MemoOk .full rebootMemo)
    (crashes : RecoveryCrashes state.log.start state.log.size
      (afterWrites state.disk ((transactionWrites updates state memo).take crash)) crashed) :
    ∃ recovered memo', recover_from_log (rebooted state.log.start state.log.size crashed, rebootMemo) =
          .ok () (recovered, memo') ∧
      (HeaderWritten state.log.start ((transactionWrites updates state memo).take crash) →
        ∀ sector, OutsideLog state.log.start state.log.size sector →
          recovered.disk sector = afterWrites state.disk updates sector) ∧
      (¬ HeaderWritten state.log.start ((transactionWrites updates state memo).take crash) →
        ∀ sector, OutsideLog state.log.start state.log.size sector →
          recovered.disk sector = state.disk sector) := by
  rcases transactionWrites_take idle outside allowed crash with
    ⟨written, recoverable⟩ | ⟨unwritten, recoverable⟩
  · obtain ⟨recovered, memo', ran, homes⟩ := recoverable.recovers crashes rebootAllowed
    exact ⟨recovered, memo', ran, fun _ => homes, fun unwritten => absurd written unwritten⟩
  · obtain ⟨recovered, memo', ran, homes⟩ := recoverable.recovers crashes rebootAllowed
    exact ⟨recovered, memo', ran, fun written => absurd written unwritten, fun _ => homes⟩

theorem transaction_crash_atomic_two_blocks :
    let state := rebooted 100 10 fun _ => Bytes.zero
    let updates := [(5, Bytes.zero.set 0 1), (6, Bytes.zero.set 0 2), (5, Bytes.zero.set 0 3)]
    let leading := (transactionWrites updates state {}).take 4
    ∃ recovered memo', recover_from_log
        (rebooted state.log.start state.log.size (afterWrites state.disk leading), {}) = .ok () (recovered, memo') ∧
      (HeaderWritten state.log.start leading → ∀ sector, OutsideLog state.log.start state.log.size sector →
          recovered.disk sector = afterWrites state.disk updates sector) ∧
      (¬ HeaderWritten state.log.start leading → ∀ sector, OutsideLog state.log.start state.log.size sector →
          recovered.disk sector = state.disk sector) := by
  intro state updates leading
  have idle : LogIdle state :=
    ⟨fun _ => rfl, rfl, by simp [headSectors, state, rebooted], rfl, by decide⟩
  have allowed : MemoOk .full {} := ⟨by simp, by simp, .inl rfl⟩
  have outside : ∀ update ∈ updates, OutsideLog state.log.start state.log.size update.1 ∧ update.1 < 2 ^ 32 := by
    intro update member
    simp only [updates, List.mem_cons, List.not_mem_nil, or_false] at member
    rcases member with rfl | rfl | rfl
    all_goals exact ⟨.inl (by decide), by decide⟩
  exact transaction_crash_atomic updates 4 idle outside allowed allowed .refl

/-! ## Histories -/

abbrev History := List (Bool × List (Nat × Block))

/-- A transaction that returns, or one that a crash cuts short, as it may recoveries
after it, until one completes. -/
def LogStep (state : State) (updates : List (Nat × Block)) : (returned : Bool) → State → Prop
  | true, next => ∃ memo last, MemoOk .full memo ∧ transaction updates (state, memo) = .ok () (next, last)
  | false, next => ∃ memo rebootMemo last crash crashed, MemoOk .full memo ∧ MemoOk .full rebootMemo ∧
    RecoveryCrashes state.log.start state.log.size
      (afterWrites state.disk ((transactionWrites updates state memo).take crash)) crashed ∧
    recover_from_log (rebooted state.log.start state.log.size crashed, rebootMemo) = .ok () (next, last)

def LogRun : State → History → State → Prop
  | state, [], last => last = state
  | state, (returned, updates) :: rest, last => ∃ next, LogStep state updates returned next ∧ LogRun next rest last

/-- A store with atomic transactions: those that returned are applied, in order,
and any of the others. -/
def StoreRun : (Nat → Block) → History → (Nat → Block) → Prop
  | store, [], last => last = store
  | store, (returned, updates) :: rest, last =>
    StoreRun (afterWrites store updates) rest last ∨ returned = false ∧ StoreRun store rest last

/-- The machine is between transactions, with the store outside its log. -/
structure Stores (start size : Nat) (store : Nat → Block) (state : State) : Prop where
  idle : LogIdle state
  homes : ∀ sector, OutsideLog start size sector → state.disk sector = store sector
  start : state.log.start = start
  size : state.log.size = size

section Histories

variable {start size : Nat} {first state next last : State} {store goal : Nat → Block}
  {updates : List (Nat × Block)}

theorem Logging.stores (idle : LogIdle first) (logging : Logging first updates state) (settled : state.Settled)
    (outside : ∀ update ∈ updates, OutsideLog first.log.start first.log.size update.1 ∧ update.1 < 2 ^ 32) :
    Stores first.log.start first.log.size (afterWrites first.disk updates) state.committed := by
  have start : state.log.start = first.log.start := by rw [logging.log]
  have size : state.log.size = first.log.size := by rw [logging.log]
  have room : 0 < state.log.size := size ▸ idle.room
  unfold State.committed
  by_cases empty : state.log.sectors = []
  · have absent (sector : Nat) : sector ∉ state.log.sectors := by simp [empty]
    rw [State.commitWrites, if_pos empty, State.written_nil]
    refine ⟨⟨fun sector => settled sector (absent sector), rfl, ?_, rfl, room⟩,
      fun sector placed => logging.unlogged placed (absent sector), start, size⟩
    change headSectors (state.disk state.log.start) = []
    rw [start, logging.writes.disk_outside (.inl (Nat.le_refl _))]
    exact idle.header
  · have small : ∀ sector ∈ state.log.sectors, sector < 2 ^ 32 :=
      logging.homes fun update member => (outside update member).2
    obtain ⟨header, commits⟩ := logging.commitWrites_eq small empty
    have recoverable := logging.recoverable (fun update member => (outside update member).1) header
    refine ⟨⟨fun sector => ?_, rfl, ?_, rfl, room⟩, fun sector placed => ?_, start, size⟩
    · simp only [State.written]
      split
      · rfl
      · rename_i unwritten
        rw [afterWrites_of_not_mem unwritten]
        refine settled sector fun member => unwritten ?_
        rw [commits, recoveryWrites, update_self, header]
        simp [member]
    · change headSectors (afterWrites state.disk state.commitWrites state.log.start) = []
      rw [start, commits]
      exact headSectors_recovered _ _
    · change afterWrites state.disk state.commitWrites sector = _
      rw [commits]
      exact recoverable.recovered placed

theorem Recoverable.stores {crashed : Nat → Block} {memo' : Memo}
    (recoverable : Recoverable start size goal crashed) (allowed : MemoOk .full memo)
    (ran : recover_from_log (rebooted start size crashed, memo) = .ok () (next, memo')) :
    Stores start size goal next := by
  have same : next = _ := ((recover_from_log_wp recoverable.sound).returned allowed ran).1
  rw [same]
  exact ⟨⟨fun _ => rfl, rfl, headSectors_recovered start crashed, rfl, Nat.zero_lt_of_lt recoverable.sound.fits⟩,
    fun sector placed => recoverable.recovered placed, rfl, rfl⟩

theorem Stores.congr (stores : Stores start size store state)
    (same : ∀ sector, OutsideLog start size sector → store sector = goal sector) : Stores start size goal state :=
  { stores with homes := fun sector placed => (stores.homes sector placed).trans (same sector placed) }

theorem Stores.step {returned : Bool} (stores : Stores start size store state)
    (outside : ∀ update ∈ updates, OutsideLog start size update.1 ∧ update.1 < 2 ^ 32)
    (step : LogStep state updates returned next) :
    Stores start size (afterWrites store updates) next ∨ returned = false ∧ Stores start size store next := by
  obtain ⟨idle, homes, rfl, rfl⟩ := stores
  have merged (sector : Nat) (placed : OutsideLog state.log.start state.log.size sector) :
      afterWrites state.disk updates sector = afterWrites store updates sector :=
    afterWrites_congr (homes sector placed)
  cases returned with
  | true =>
    obtain ⟨memo, last, allowed, ran⟩ := step
    obtain ⟨committing, logging, settled, same⟩ := ((transaction_wp idle fun update member =>
      (outside update member).1).returned allowed ran).1
    rw [show next = committing.committed from same]
    exact .inl ((logging.stores idle settled outside).congr merged)
  | false =>
    obtain ⟨memo, rebootMemo, last, crash, crashed, allowed, rebootAllowed, crashes, ran⟩ := step
    rcases transactionWrites_take idle outside allowed crash with ⟨_, recoverable⟩ | ⟨_, recoverable⟩
    · exact .inl (((recoverable.crashes crashes).stores rebootAllowed ran).congr merged)
    · exact .inr ⟨rfl, ((recoverable.crashes crashes).stores rebootAllowed ran).congr homes⟩

theorem Stores.run {history : History} (stores : Stores start size store state)
    (outside : ∀ entry ∈ history, ∀ update ∈ entry.2, OutsideLog start size update.1 ∧ update.1 < 2 ^ 32)
    (run : LogRun state history last) : ∃ final, StoreRun store history final ∧ Stores start size final last := by
  induction history generalizing state store with
  | nil => exact ⟨store, rfl, run ▸ stores⟩
  | cons entry rest ih =>
    obtain ⟨next, step, later⟩ := run
    have onward := fun entry member => outside entry (List.mem_cons_of_mem _ member)
    rcases stores.step (outside entry List.mem_cons_self) step with after | ⟨cut, after⟩
    · obtain ⟨final, run, holds⟩ := ih after onward later
      exact ⟨final, .inl run, holds⟩
    · obtain ⟨final, run, holds⟩ := ih after onward later
      exact ⟨final, .inr ⟨cut, run⟩, holds⟩

end Histories

/-- Over any history of transactions and crashes the disk is an atomic store: a
transaction that returned stays, one that was cut short is there as a whole or not
at all, and every transaction that fits the log still returns. -/
theorem log_keeps_atomic_store {first state : State} {history : History} (idle : LogIdle first)
    (outside : ∀ entry ∈ history, ∀ update ∈ entry.2,
      OutsideLog first.log.start first.log.size update.1 ∧ update.1 < 2 ^ 32) (run : LogRun first history state) :
    ∃ store, StoreRun first.disk history store ∧ Stores first.log.start first.log.size store state ∧
      ∀ updates memo, (∀ update ∈ updates, OutsideLog first.log.start first.log.size update.1) →
        updates.length ≤ LOGSIZE → updates.length < first.log.size → MemoOk .full memo →
        ∃ next, transaction updates (state, memo) = .ok () next := by
  obtain ⟨store, refines, stores⟩ :=
    (⟨idle, fun _ _ => rfl, rfl, rfl⟩ : Stores _ _ first.disk first).run outside run
  refine ⟨store, refines, stores, fun updates memo outside short fits allowed => ?_⟩
  rw [← stores.start, ← stores.size] at outside
  exact transaction_returns stores.idle outside short (by rwa [stores.size]) allowed

theorem log_keeps_atomic_store_one_block : ∃ state store, Stores 100 10 store state ∧
    StoreRun (fun _ => Bytes.zero) [(true, [(5, Bytes.zero.set 0 1)])] store := by
  have idle : LogIdle (rebooted 100 10 fun _ => Bytes.zero) :=
    ⟨fun _ => rfl, rfl, by simp [headSectors, rebooted], rfl, by decide⟩
  have allowed : MemoOk .full {} := ⟨by simp, by simp, .inl rfl⟩
  obtain ⟨next, ran⟩ : ∃ next, transaction [(5, Bytes.zero.set 0 1)] (rebooted 100 10 _, {}) = .ok () next :=
    transaction_returns idle (by simp [OutsideLog, rebooted]) (by decide) (by decide) allowed
  have run : LogRun _ [(true, _)] next.1 := ⟨next.1, ⟨{}, next.2, allowed, ran⟩, rfl⟩
  obtain ⟨store, refines, stores, _⟩ := log_keeps_atomic_store idle (by simp [OutsideLog, rebooted]) run
  exact ⟨next.1, store, stores, refines⟩

end Xv6Dedup
