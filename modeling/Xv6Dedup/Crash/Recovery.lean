import Xv6Dedup.Kernel.LogProperties

/-!
# Recovery

What a reboot does with a disk. Single-sector writes are atomic and reach the
disk in program order, so a crash leaves the disk after some leading part of
the writes issued so far.
-/

set_option autoImplicit false

namespace Xv6Dedup

open Function

/-- The kernel state before recovery: nothing cached, the log located. -/
def rebooted (start size : Nat) (disk : Nat → Block) : State where
  disk := disk
  buf := fun sector => { data := disk sector }
  log := { start := start, size := size }

/-- The visible state a run ended in, whether it returned or stopped. -/
def endState {α : Type} : EStateM.Result Stop (State × Memo) α → State
  | .ok _ next => next.1
  | .error _ next => next.1

/-- A recovery of `disk` that is cut short by another crash. -/
def RecoveryCrash (start size : Nat) (disk crashed : Nat → Block) : Prop :=
  ∃ memo count, MemoOk .full memo ∧ crashed = afterWrites disk
    ((endState (recover_from_log (rebooted start size disk, memo))).trace.take count)

abbrev RecoveryCrashes (start size : Nat) : (Nat → Block) → (Nat → Block) → Prop :=
  Relation.ReflTransGen (RecoveryCrash start size)

/-- The writes of a recovery of `disk`. -/
def recoveryWrites (start : Nat) (disk : Nat → Block) : List (Nat × Block) :=
  installWrites (fun index => disk (start + index + 1)) 0 (headSectors (disk start)) ++
    [(start, putHead (disk start) [])]

def OutsideLog (start size sector : Nat) : Prop := sector < start ∨ start + size ≤ sector

/-- The header names only sectors outside the log, few enough for its slots. -/
structure HeaderSound (start size : Nat) (disk : Nat → Block) : Prop where
  outside : ∀ sector ∈ headSectors (disk start), OutsideLog start size sector
  fits : (headSectors (disk start)).length < size

private theorem written_rebooted (start size : Nat) (disk : Nat → Block) (writes : List (Nat × Block)) :
    (rebooted start size disk).written writes =
      { rebooted start size (afterWrites disk writes) with trace := writes } := by
  simp only [State.written, rebooted, List.nil_append]
  congr 1
  funext sector
  split
  · rfl
  · rename_i absent
    rw [afterWrites_of_not_mem absent]

theorem recover_from_log_wp {free : Freedom} {start size : Nat} {disk : Nat → Block}
    (sound : HeaderSound start size disk) : FsWp free recover_from_log (rebooted start size disk)
      (fun _ next => next = { rebooted start size (afterWrites disk (recoveryWrites start disk))
        with trace := recoveryWrites start disk }) (fun _ _ => False) := by
  have steady : Steady free (rebooted start size disk) := .inr fun _ _ _ => rfl
  refine Wp.bind (Wp.see ?_)
  refine Wp.bind (bread_wp steady rfl ?_)
  refine Wp.bind (bdata_wp (by simp) ?_)
  refine Wp.set ?_
  refine brelse_wp (by simp [State.hold, State.setBuf]) ?_
  have read : ((rebooted start size disk).hold start).buf start = { data := disk start, busy := true } := by
    simp [State.hold, State.setBuf, rebooted]
  have loaded : ∀ after : State, after = { rebooted start size disk with
      log := { start := start, size := size, sectors := headSectors (disk start) } } →
      FsWp free (do install_trans; clearHead; write_head) after (fun _ next => next = { rebooted start size
          (afterWrites disk (recoveryWrites start disk)) with
            trace := recoveryWrites start disk }) (fun _ _ => False) := by
    rintro after rfl
    refine install_clear_wp (.inr fun _ _ _ => rfl) ⟨rfl, ?_, fun _ _ => rfl, ?_⟩ ?_
    · intro member
      have placed := sound.outside start member
      have fits := sound.fits
      rcases placed with placed | placed <;> omega
    · intro index bounded
      refine ⟨rfl, fun member => ?_⟩
      have placed := sound.outside _ member
      have fits := sound.fits
      simp only at bounded placed
      rcases placed with placed | placed <;> omega
    · have after := written_rebooted start size disk (recoveryWrites start disk)
      rw [← after]
      rfl
  apply loaded
  simp only [State.release, State.hold, State.setBuf, rebooted, update_self, update_idem]
  congr 1
  funext sector
  by_cases same : sector = start
  · simp [same]
  · simp [same]

theorem recover_from_log_returns {start size : Nat} {disk : Nat → Block} {memo : Memo}
    (sound : HeaderSound start size disk) (allowed : MemoOk .full memo) :
    ∃ next memo', recover_from_log (rebooted start size disk, memo) = .ok () (next, memo') ∧
      next.disk = afterWrites disk (recoveryWrites start disk) ∧ next.trace = recoveryWrites start disk := by
  obtain ⟨_, ⟨next, memo'⟩, ran, same, _⟩ := (recover_from_log_wp sound).total allowed
  subst same
  exact ⟨_, memo', ran, rfl, rfl⟩

theorem RecoveryCrash.leading {start size : Nat} {disk crashed : Nat → Block}
    (crash : RecoveryCrash start size disk crashed) (sound : HeaderSound start size disk) :
    ∃ count, crashed = afterWrites disk ((recoveryWrites start disk).take count) := by
  obtain ⟨memo, count, allowed, same⟩ := crash
  obtain ⟨next, memo', ran, _, trace⟩ := recover_from_log_returns sound allowed
  rw [ran] at same
  exact ⟨count, by rw [same, ← trace]; rfl⟩

theorem headSectors_recovered (start : Nat) (disk : Nat → Block) :
    headSectors (afterWrites disk (recoveryWrites start disk) start) = [] := by
  rw [recoveryWrites, afterWrites_append, afterWrites_cons, afterWrites_nil, update_self]
  exact headSectors_putHead_nil _

/-! ## What a recovery is going to establish -/

/-- Recovering `disk` gives the sectors outside the log the contents `goal`: the
logged sectors have them in their slots, all others already have them. -/
structure Recoverable (start size : Nat) (goal disk : Nat → Block) : Prop where
  sound : HeaderSound start size disk
  logged : ∀ position sector, (headSectors (disk start))[position]? = some sector →
    disk (start + position + 1) = goal sector
  homes : ∀ sector, OutsideLog start size sector → sector ∉ headSectors (disk start) → disk sector = goal sector

section Recoverable

variable {start size : Nat} {goal disk crashed : Nat → Block}

theorem Recoverable.of_empty_header (empty : headSectors (disk start) = []) (room : 0 < size)
    (homes : ∀ sector, OutsideLog start size sector → disk sector = goal sector) :
    Recoverable start size goal disk where
  sound := ⟨by simp [empty], by simpa [empty] using room⟩
  logged := by simp [empty]
  homes := fun sector outside _ => homes sector outside

private theorem afterWrites_install_inside (contents : Nat → Block)
    (sound : HeaderSound start size disk) (count : Nat) {sector : Nat} (inside : ¬ OutsideLog start size sector) :
    afterWrites disk ((installWrites contents 0 (headSectors (disk start))).take count) sector = disk sector := by
  apply afterWrites_of_not_mem
  rw [List.map_take, installWrites_map_fst]
  exact fun member => inside (sound.outside _ (List.mem_of_mem_take member))

variable (recoverable : Recoverable start size goal disk)
include recoverable

theorem Recoverable.recovered {sector : Nat} (outside : OutsideLog start size sector) :
    afterWrites disk (recoveryWrites start disk) sector = goal sector := by
  have notHeader : start ≠ sector := by
    have room := recoverable.sound.fits
    rcases outside with before | after <;> omega
  rw [recoveryWrites, afterWrites_append, afterWrites_cons, afterWrites_nil, update_of_ne notHeader.symm]
  by_cases member : sector ∈ headSectors (disk start)
  · refine afterWrites_installWrites (fun position home found => ?_) member
    simpa using recoverable.logged position home found
  · rw [afterWrites_of_not_mem (by rwa [installWrites_map_fst])]
    exact recoverable.homes sector outside member

theorem Recoverable.take_recoveryWrites (count : Nat) :
    Recoverable start size goal (afterWrites disk ((recoveryWrites start disk).take count)) := by
  have room : 0 < size := Nat.lt_of_le_of_lt (Nat.zero_le _) recoverable.sound.fits
  have startInside : ¬ OutsideLog start size start := by
    rintro (before | after) <;> omega
  rcases take_append_cases (installWrites (fun index => disk (start + index + 1)) 0
      (headSectors (disk start))) [(start, putHead (disk start) [])] count with
    ⟨_, installing⟩ | ⟨past, cleared⟩
  · rw [recoveryWrites, installing]
    have headKept := afterWrites_install_inside (fun index => disk (start + index + 1))
      recoverable.sound count startInside
    refine ⟨⟨?_, ?_⟩, ?_, ?_⟩
    all_goals simp only [headKept]
    · exact recoverable.sound.outside
    · exact recoverable.sound.fits
    · intro position home found
      rw [afterWrites_install_inside _ recoverable.sound count]
      · exact recoverable.logged position home found
      · have fits := recoverable.sound.fits
        have inside := (List.getElem?_eq_some_iff.mp found).1
        rintro (before | after) <;> omega
    · intro sector outside absent
      rw [afterWrites_of_not_mem]
      · exact recoverable.homes sector outside absent
      · rw [List.map_take, installWrites_map_fst]
        exact fun member => absent (List.mem_of_mem_take member)
  · have complete : (recoveryWrites start disk).take count = recoveryWrites start disk := by
      rw [recoveryWrites, cleared, List.take_of_length_le]
      simp only [List.length_singleton]
      omega
    rw [complete]
    exact Recoverable.of_empty_header (headSectors_recovered start disk) room fun sector outside =>
      recoverable.recovered outside

theorem Recoverable.crashes (crashes : RecoveryCrashes start size disk crashed) :
    Recoverable start size goal crashed := by
  induction crashes with
  | refl => exact recoverable
  | tail _ crash ih =>
    obtain ⟨count, rfl⟩ := crash.leading ih.sound
    exact ih.take_recoveryWrites count

theorem Recoverable.recovers {memo : Memo} (crashes : RecoveryCrashes start size disk crashed)
    (allowed : MemoOk .full memo) :
    ∃ recovered memo', recover_from_log (rebooted start size crashed, memo) = .ok () (recovered, memo') ∧
      ∀ sector, OutsideLog start size sector → recovered.disk sector = goal sector := by
  have ready := recoverable.crashes crashes
  obtain ⟨recovered, memo', ran, disk, _⟩ := recover_from_log_returns ready.sound allowed
  refine ⟨recovered, memo', ran, fun sector outside => ?_⟩
  rw [disk]
  exact ready.recovered outside

end Recoverable

end Xv6Dedup
