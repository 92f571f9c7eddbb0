import Xv6Dedup.System.Lookup
import Mathlib.Algebra.BigOperators.Fin
import Mathlib.Algebra.Order.BigOperators.Group.Finset

/-!
# What system calls do to reference counts

The references to an inode that are not held by open files are held by the
processes whose working directory it is. Every call keeps that balance, and
none of them makes `log_write` panic outside a transaction as long as path
lookup can be done without writing.
-/

set_option autoImplicit false

namespace Xv6Dedup

open Program
open Function (update update_of_ne update_self)

/-- Whether the file refers to the inode in `slot`. -/
def File.on (slot : Slot) (file : File) : Int :=
  if file.type = .inode ∧ file.ip = slot then 1 else 0

/-- The references to `slot` that open files do not account for. -/
def State.balance (state : State) (slot : Slot) : Int :=
  (state.icache slot).ref - ∑ f, (state.ftable f).on slot

def State.Closed (state : State) : Prop :=
  ∀ f, (state.ftable f).ref = 0 → (state.ftable f).type = .none

/-- The balance has changed by `delta`, and `log.busy` is `logging`. -/
structure Carried (state : State) (delta : Slot → Int) (logging : Bool) (next : State) : Prop where
  cwd : next.cwd = state.cwd
  logging : next.log.busy = logging
  closed : state.Closed → next.Closed
  balance : ∀ slot, next.balance slot = state.balance slot + delta slot

theorem sum_update {ι β : Type} [Fintype ι] [DecidableEq ι] (weight : β → Int) (table : ι → β) (index : ι) (value : β) :
    ∑ other, weight (update table index value other) =
      ∑ other, weight (table other) + (weight value - weight (table index)) := by
  have split := fun entries : ι → β =>
    Finset.add_sum_erase Finset.univ (fun other => weight (entries other)) (Finset.mem_univ index)
  rw [← split, ← split table, update_self, Finset.sum_congr rfl fun other member => by
    rw [update_of_ne (Finset.ne_of_mem_erase member)]]
  abel

section Carried

variable {state middle next : State} {first second delta : Slot → Int} {now later : Bool}

theorem Carried.trans (before : Carried state first now middle)
    (after : Carried middle second later next) : Carried state (first + second) later next where
  cwd := after.cwd.trans before.cwd
  logging := after.logging
  closed := after.closed ∘ before.closed
  balance slot := by
    rw [after.balance, before.balance, Pi.add_apply, add_assoc]

theorem Carried.same (before : Carried state delta now middle) (after : Carried middle 0 later next) :
    Carried state delta later next := by
  have both := before.trans after
  rwa [add_zero] at both

theorem Carried.refl (state : State) : Carried state 0 state.log.busy state :=
  ⟨rfl, rfl, id, fun _ => (add_zero _).symm⟩

theorem Carried.idle (idle : state.log.busy = false) : Carried state 0 false state :=
  idle ▸ Carried.refl state

theorem Shifted.carried (shifted : Shifted state delta now next) : Carried state delta now next where
  cwd := shifted.cwd
  logging := shifted.logging
  closed := by
    unfold State.Closed
    rw [shifted.files]
    exact id
  balance slot := by
    unfold State.balance
    rw [shifted.files, shifted.refs]
    abel

theorem Carried.confined {ip : Slot} (before : Carried state delta now middle)
    (here : Confined ip middle next) : Carried state delta now next := by
  have after := before.same here.shifted.carried
  rwa [before.logging] at after

theorem carried_setFile {f : Fin NFILE} {file : File} {amount : Slot → Int}
    (on : ∀ slot, file.on slot = (state.ftable f).on slot - amount slot)
    (closed : state.Closed → file.ref = 0 → file.type = .none) :
    Carried state amount state.log.busy (state.setFile f file) where
  cwd := rfl
  logging := rfl
  closed before other := by
    by_cases same : other = f
    · subst same
      simp only [State.setFile, update_self]
      exact closed before
    · simp only [State.setFile, update_of_ne same]
      exact before other
  balance slot := by
    unfold State.balance
    simp only [State.setFile]
    rw [sum_update (File.on slot), on slot]
    abel

theorem carried_refile {f : Fin NFILE} {file : File} (type : file.type = (state.ftable f).type)
    (ip : file.ip = (state.ftable f).ip) (closed : state.Closed → file.ref = 0 → file.type = .none) :
    Carried state 0 state.log.busy (state.setFile f file) := by
  refine carried_setFile (fun slot => ?_) closed
  rw [Pi.zero_apply, sub_zero, File.on, File.on, type, ip]

end Carried

/-! ## Transactions and references -/

section Parts

variable {state : State} {ip : Slot}

theorem begin_trans_wp : TransWp begin_trans state
    (fun _ next => next = { state with log := { state.log with busy := true } }) :=
  Wp.see (Wp.guard (by decide) fun _ => Wp.change rfl)

theorem carried_begin : Carried state 0 true { state with log := { state.log with busy := true } } :=
  ⟨rfl, rfl, id, fun _ => (add_zero _).symm⟩

theorem Carried.commit {start : State} {delta : Slot → Int} (before : Carried start delta true state) :
    TransWp commit_trans state (fun _ next => Carried start delta false next ∧ next.icache = state.icache ∧
        next.ftable = state.ftable) :=
  (commit_trans_keeps.logged before.logging).post fun _ _ kept =>
    ⟨before.same kept.1.carried, kept.2, kept.1.files⟩

theorem Touches.logged {α : Type} {program : FsM α} (touches : Touches ip program) (logging : state.log.busy = true) :
    TransWp program state (fun _ => Confined ip state) :=
  (touches state).logged logging

/-- Dropping a reference to the inode does not free it. -/
def Safe (state : State) (ip : Slot) : Prop :=
  ¬ ((state.icache ip).ref = 1 ∧ (state.icache ip).valid = true ∧ (state.icache ip).nlink = 0)

theorem Safe.congr {next : State} (safe : Safe state ip) (same : next.icache = state.icache) : Safe next ip := by
  unfold Safe
  rw [same]
  exact safe

theorem iput_safe (safe : Safe state ip) : TransWp (iput ip) state
      (fun _ next => next = state.setInode ip { state.icache ip with ref := (state.icache ip).ref - 1 }) :=
  Wp.peek (Wp.bind (Wp.onlyIf (fun last => absurd last safe) fun _ => Wp.change rfl))

theorem shifted_drop (ip : Slot) : Shifted state (-one ip) state.log.busy
    (state.setInode ip { state.icache ip with ref := (state.icache ip).ref - 1 }) := by
  rw [← Pi.single_neg]
  exact shifted_setInode rfl

theorem iunlock_wp : TransWp (iunlock ip) state
    (fun _ next => next = state.setInode ip { state.icache ip with busy := false }) :=
  Wp.peek (Wp.guard (by decide) fun _ => Wp.change rfl)

theorem iunlockput_safe (safe : Safe state ip) : TransWp (iunlockput ip) state
      (fun _ => Shifted state (-one ip) state.log.busy) := by
  refine Wp.seq iunlock_wp ?_
  rintro _ next rfl
  have unlocked : Confined ip state (state.setInode ip { state.icache ip with busy := false }) :=
    ((slotFrame ip).refl state).setInode rfl
  refine (iput_safe ?_).post ?_
  · simp only [Safe, State.setInode, update_self]
    exact safe
  · rintro _ last rfl
    have both := unlocked.shifted.trans (shifted_drop ip)
    rwa [zero_add] at both

theorem iput_others (logging : state.log.busy = true) : TransWp (iput ip) state
      (fun _ next => Shifted state (-one ip) true next ∧ ∀ slot, slot ≠ ip → next.icache slot = state.icache slot) := by
  have others : Yields (iput ip) state (fun _ next => ∀ slot, slot ≠ ip → next.icache slot = state.icache slot) := by
    refine Wp.peek ?_
    have freed : Touches ip (onlyIf ((state.icache ip).ref = 1 ∧ (state.icache ip).valid = true ∧
      (state.icache ip).nlink = 0) (iputFree ip)) := touches_iputFree.onlyIf
    refine Wp.seq ((freed state).yields) fun _ next confined => ?_
    refine Wp.change fun slot other => ?_
    simp only [State.setInode, update_of_ne other]
    exact confined.others slot other
  have shifts : Shifts (fun _ => -one ip) (iput ip) := shifts_iput
  refine ((shifts state).and others).mono (fun _ next both => ⟨?_, both.2⟩) fun _ _ both =>
    both.1 logging
  rw [← logging]
  exact both.1.toShifted

end Parts

/-! ## Closing -/

/-- After `dropped` references less there is one more left, or the inode has a link. -/
def Stays (slot : Slot) (dropped : Nat) (state : State) : Prop :=
  (state.icache slot).valid = true → (state.icache slot).nlink ≠ 0 ∨ 1 + (dropped : Int) < (state.icache slot).ref

/-- Whether the file was opened on the inode in `slot`. -/
def State.counts (state : State) (f : Fin NFILE) (slot : Slot) : Nat :=
  if (state.ftable f).ip = slot then 1 else 0

section Closing

variable {state : State} {slot : Slot} {dropped : Nat}

theorem Stays.mono {fewer : Nat} (stays : Stays slot dropped state) (less : fewer ≤ dropped) :
    Stays slot fewer state := by
  intro valid
  rcases stays valid with linked | many
  · exact .inl linked
  · exact .inr (by omega)

theorem Stays.congr {next : State} (stays : Stays slot dropped state)
    (same : next.icache slot = state.icache slot) : Stays slot dropped next := by
  unfold Stays
  rw [same]
  exact stays

theorem Stays.safe (stays : Stays slot dropped state) : Safe state slot := by
  rintro ⟨last, valid, unlinked⟩
  rcases stays valid with linked | many
  · exact linked unlinked
  · omega

theorem iput_stays (logging : state.log.busy = true) (ip slot : Slot) (dropped : Nat) : TransWp (iput ip) state
      (fun _ next => Shifted state (-one ip) true next ∧
        (Stays slot (dropped + if ip = slot then 1 else 0) state → Stays slot dropped next)) := by
  by_cases stays : Stays slot (dropped + if ip = slot then 1 else 0) state
  · by_cases same : ip = slot
    · subst same
      rw [if_pos rfl] at stays
      refine (iput_safe stays.safe).post ?_
      rintro _ next rfl
      refine ⟨logging ▸ shifted_drop ip, fun _ => ?_⟩
      unfold Stays at stays ⊢
      simp only [State.setInode, update_self]
      intro valid
      rcases stays valid with linked | many
      · exact .inl linked
      · exact .inr (by omega)
    · refine (iput_others logging).post fun _ next kept => ⟨kept.1, fun stays => ?_⟩
      rw [if_neg same] at stays
      exact stays.congr (kept.2 slot (Ne.symm same))
  · exact (iput_others logging).post fun _ next kept => ⟨kept.1, fun other => absurd other stays⟩

theorem pipeclose_wp (p : Nat) (writable : Bool) : TransWp (pipeclose p writable) state
      (fun _ next => ∃ page pipe, next = state.setPipe page pipe) := by
  refine Wp.see ?_
  cases state.pipes p with
  | none => exact Wp.throw (by decide)
  | some pipe => exact Wp.change ⟨_, _, rfl⟩

theorem fileclose_wp (idle : state.log.busy = false) (f : Fin NFILE) (slot : Slot) (dropped : Nat) :
    TransWp (fileclose f) state (fun _ next => Carried state 0 false next ∧
        (∀ g, (next.ftable g).ip = (state.ftable g).ip) ∧
        (Stays slot (dropped + state.counts f slot) state → Stays slot dropped next)) := by
  have named : ∀ file : File, file.ip = (state.ftable f).ip →
      ∀ g, ((state.setFile f file).ftable g).ip = (state.ftable g).ip := by
    intro file same g
    by_cases this : g = f
    · subst this
      simp only [State.setFile, update_self]
      exact same
    · simp only [State.setFile, update_of_ne this]
  refine Wp.peek ?_
  refine Wp.guard (by decide) fun _ => Wp.ite (fun more => ?_) fun _ => ?_
  · refine Wp.change ⟨?_, named _ rfl, fun stays => stays.mono (Nat.le_add_right _ _)⟩
    rw [← idle]
    exact carried_refile rfl rfl fun _ zero => absurd zero (by simp only; omega)
  · have closing : Carried state (fun slot => (state.ftable f).on slot) false
        (state.setFile f { state.ftable f with ref := 0, type := .none }) := by
      rw [← idle]
      refine carried_setFile (fun slot => ?_) fun _ _ => rfl
      simp [File.on]
    have names := named { state.ftable f with ref := 0, type := .none } rfl
    have cache : (state.setFile f { state.ftable f with ref := 0, type := .none }).icache = state.icache := rfl
    refine Wp.set ?_
    generalize state.setFile f { state.ftable f with ref := 0, type := .none } = shut at closing names cache ⊢
    have kept (other : (state.ftable f).type ≠ .inode) : Carried state 0 false shut ∧
        (∀ g, (shut.ftable g).ip = (state.ftable g).ip) ∧
        (Stays slot (dropped + state.counts f slot) state → Stays slot dropped shut) := by
      refine ⟨?_, names, fun stays => (stays.mono (Nat.le_add_right _ _)).congr (congrFun cache slot)⟩
      have zero : (fun slot => (state.ftable f).on slot) = 0 := funext fun slot => by
        simp [File.on, other]
      rwa [zero] at closing
    cases type : (state.ftable f).type with
    | pipe =>
      obtain ⟨carried, names, stays⟩ := kept (type ▸ nofun)
      refine (pipeclose_wp _ _).post ?_
      rintro _ next ⟨page, pipe, rfl⟩
      exact ⟨{ carried with }, names, stays⟩
    | none => exact Wp.pure (kept (type ▸ nofun))
    | inode =>
      have same : (fun slot => (state.ftable f).on slot) = one (state.ftable f).ip := by
        funext slot
        simp only [File.on, type, true_and, Pi.single_apply, eq_comm]
      rw [same] at closing
      have begun := closing.same carried_begin
      refine Wp.seq begin_trans_wp ?_
      rintro _ _ rfl
      refine Wp.seq (iput_stays begun.logging _ slot dropped) ?_
      rintro _ put ⟨dropping, stays⟩
      have after := begun.trans dropping.carried
      rw [add_neg_cancel] at after
      refine after.commit.post ?_
      rintro _ next ⟨carried, committed, files⟩
      refine ⟨carried, fun g => ?_, fun before => ?_⟩
      · rw [files, dropping.files]
        exact names g
      · exact (stays (before.congr (congrFun cache slot))).congr (congrFun committed slot)

/-- How many of the descriptors are open on the inode in `slot`. -/
def State.openOn (state : State) (ofile : Ofile) (slot : Slot) : List (Fin NOFILE) → Nat
  | [] => 0
  | fd :: rest =>
    (match ofile fd with
      | none => 0
      | some f => state.counts f slot) + state.openOn ofile slot rest

theorem openOn_congr {next : State} (named : ∀ f, (next.ftable f).ip = (state.ftable f).ip)
    (ofile : Ofile) (slot : Slot) (fds : List (Fin NOFILE)) :
    next.openOn ofile slot fds = state.openOn ofile slot fds := by
  induction fds with
  | nil => rfl
  | cons fd rest ih =>
    simp only [State.openOn, ih]
    cases ofile fd with
    | none => rfl
    | some f => simp only [State.counts, named f]

theorem closeFiles_wp (idle : state.log.busy = false) (ofile : Ofile) (slot : Slot)
    (fds : List (Fin NOFILE)) (stays : Stays slot (state.openOn ofile slot fds) state) :
    TransWp (closeFiles ofile fds) state (fun _ next => Carried state 0 false next ∧ Stays slot 0 next) := by
  induction fds generalizing state with
  | nil => exact Wp.pure ⟨.idle idle, stays⟩
  | cons fd rest ih =>
    cases present : ofile fd with
    | none =>
      simp only [closeFiles, present]
      refine Wp.bind (Wp.pure (ih idle (stays.mono ?_)))
      simp [State.openOn, present]
    | some f =>
      simp only [closeFiles, present]
      refine Wp.seq (fileclose_wp idle f slot (state.openOn ofile slot rest)) ?_
      rintro _ next ⟨carried, named, left⟩
      refine (ih carried.logging ?_).post fun _ last done => ⟨carried.same done.1, done.2⟩
      rw [openOn_congr named]
      refine left (stays.mono (Nat.le_of_eq ?_))
      simp only [State.openOn, present]
      omega

theorem exit_wp (idle : state.log.busy = false) (initproc : Bool) (ofile : Ofile)
    (stays : Stays state.cwd (state.openOn ofile state.cwd (List.finRange NOFILE)) state) :
    TransWp (exit initproc ofile) state (fun _ => Carried state (-one state.cwd) false) := by
  refine Wp.guard (by decide) fun _ => ?_
  refine Wp.seq (closeFiles_wp idle ofile state.cwd _ stays) ?_
  rintro _ next ⟨carried, left⟩
  refine Wp.see ?_
  rw [carried.cwd]
  refine (iput_safe left.safe).post ?_
  rintro _ last rfl
  have after := carried.trans (shifted_drop state.cwd).carried
  rwa [zero_add, carried.logging] at after

end Closing

/-! ## Duplicating and writing -/

section Files

variable {state : State}

theorem filedup_wp (f : Fin NFILE) : TransWp (filedup f) state
      (fun _ next => Carried state 0 state.log.busy next ∧ next.icache = state.icache) := by
  refine Wp.peek ?_
  refine Wp.guard (by decide) fun used => Wp.change ⟨?_, rfl⟩
  exact carried_refile rfl rfl fun _ zero => absurd zero (by simp only; omega)

theorem fork_wp (ofile : Ofile) : TransWp (fork ofile) state
      (fun cwd next => cwd = state.cwd ∧ Carried state (one state.cwd) state.log.busy next) := by
  have copies : ∀ fds : List (Fin NOFILE), ∀ current : State, TransWp (dupFiles ofile fds) current
        (fun _ => Carried current 0 current.log.busy) := by
    intro fds
    induction fds with
    | nil => exact fun current => Wp.pure (Carried.refl current)
    | cons fd rest ih =>
      intro current
      cases present : ofile fd with
      | none =>
        simp only [dupFiles, present]
        exact Wp.bind (Wp.pure (ih current))
      | some f =>
        simp only [dupFiles, present]
        refine Wp.seq (filedup_wp f) fun _ next kept => ?_
        refine (ih next).post fun _ last done => ?_
        rw [kept.1.logging] at done
        exact kept.1.same done
  refine Wp.seq (copies _ state) fun _ next carried => ?_
  refine Wp.see ?_
  rw [carried.cwd]
  refine Wp.set (Wp.pure ⟨rfl, ?_⟩)
  have taken : Shifted next (one state.cwd) next.log.busy (next.setInode state.cwd
      { next.icache state.cwd with ref := (next.icache state.cwd).ref + 1 }) := shifted_setInode rfl
  have after := carried.trans taken.carried
  rwa [zero_add, carried.logging] at after

theorem writeChunk_wp {α : Type} {rest : Int → FsM α} {Post : α → State → Prop} (f : Fin NFILE)
    (src : Nat → Byte) (n1 : Nat)
    (onwards : ∀ r next, Carried state 0 false next → TransWp (rest r) next Post) :
    TransWp (do
        begin_trans
        let file ← fileAt f
        ilock file.ip
        let r ← writei file.ip src file.off n1
        onlyIf (0 < r) (setFile f { file with off := (file.off + r.toNat) % 2 ^ 32 })
        iunlock file.ip
        commit_trans
        rest r) state Post := by
  have begun : Carried state 0 true { state with log := { state.log with busy := true } } :=
    carried_begin
  refine Wp.seq begin_trans_wp ?_
  rintro _ _ rfl
  refine Wp.peek ?_
  refine Wp.seq (touches_ilock.logged begun.logging) fun _ locked lockedHere => ?_
  have lockedCarried := begun.confined lockedHere
  refine Wp.seq ((touches_writei _ _ _).logged lockedCarried.logging) fun r written writtenHere => ?_
  have writtenCarried := lockedCarried.confined writtenHere
  have files : written.ftable f = state.ftable f := by
    rw [writtenHere.files, lockedHere.files]
  have advanced : TransWp (onlyIf (0 < r) (setFile f { state.ftable f with
        off := ((state.ftable f).off + r.toNat) % 2 ^ 32 })) written
      (fun _ => Carried state 0 true) := by
    refine Wp.onlyIf (fun _ => Wp.change ?_) fun _ => writtenCarried
    have moved : Carried written 0 written.log.busy (written.setFile f { state.ftable f with
        off := ((state.ftable f).off + r.toNat) % 2 ^ 32 }) :=
      carried_refile (by rw [files]) (by rw [files]) fun closed zero => by
        rw [← files] at zero ⊢
        exact closed f zero
    rw [writtenCarried.logging] at moved
    exact writtenCarried.same moved
  refine Wp.seq advanced fun _ moved movedCarried => ?_
  refine Wp.seq (touches_iunlock.logged movedCarried.logging) fun _ unlocked unlockedHere => ?_
  exact Wp.seq (movedCarried.confined unlockedHere).commit fun _ next done => onwards r next done.1

theorem filewriteLoop_wp (idle : state.log.busy = false) (f : Fin NFILE) (addr : Nat → Byte) (n count i : Nat) :
    TransWp (filewriteLoop f addr n count i) state (fun _ => Carried state 0 false) := by
  induction count generalizing i state with
  | zero => exact Wp.pure (.idle idle)
  | succ count ih =>
    refine Wp.ite (fun _ => Wp.pure (.idle idle)) fun _ => ?_
    refine writeChunk_wp f _ _ fun r next carried => ?_
    refine Wp.ite (fun _ => Wp.pure carried) fun _ => ?_
    refine Wp.guard (by decide) fun _ => ?_
    exact (ih carried.logging _).post fun _ last done => carried.same done

theorem filewrite_wp (idle : state.log.busy = false) (f : Fin NFILE) (addr : Nat → Byte) (n : Int) :
    TransWp (filewrite f addr n) state (fun _ => Carried state 0 false) := by
  refine Wp.peek (Wp.ite (fun _ => Wp.pure (.idle idle)) fun _ => ?_)
  cases (state.ftable f).type with
  | pipe => exact Wp.see (Wp.pure (.idle idle))
  | inode => exact Wp.seq (filewriteLoop_wp idle f addr _ _ _) fun _ next done => Wp.pure done
  | none => exact Wp.throw (by decide)

end Files

/-! ## Creating, linking and unlinking -/

section Entries

variable {state : State} {ip dp : Slot}

theorem Runs.wp {α : Type} {rooted : Bool} {delta : α → Slot → Int} {program : FsM α}
    (closes : Closes rooted delta program) : TransWp (begin_trans >>= fun _ => program) state
      (fun value => Moved rooted state (delta value) false) := by
  refine Wp.seq begin_trans_wp ?_
  rintro _ _ rfl
  exact ((closes _).logged rfl).post fun value next moved => ⟨{ moved with }, moved.distinct⟩

theorem closes_made (path : Option (List Byte)) (type major minor : Nat) :
    Closes true (fun _ => 0) (createFetched path type major minor >>= fun made =>
      match made with
      | none => do
        commit_trans
        pure (-1)
      | some ip => do
        iunlockput ip
        commit_trans
        pure 0) := by
  have creates : Moves true foundInode (createFetched path type major minor) := by
    cases path with
    | none => exact Runs.pure none rfl
    | some path => exact moves_create path type major minor
  refine Runs.bind creates fun made => ?_
  cases made with
  | none => exact Runs.last (sub_zero _)
  | some ip => exact closes_drop (zero_sub _)

theorem makeNode_wp (path : Option (List Byte)) (type major minor : Nat) :
    TransWp (makeNode path type major minor) state (fun _ => Moved true state 0 false) :=
  (closes_made path type major minor).wp

theorem closes_unlink (name : List Byte) : Closes false (fun _ => -one dp) (do
      ilock dp
      if namecmp (cstring name) (cstring [46]) = 0 ∨ namecmp (cstring name) (cstring [46, 46]) = 0 then unlinkBad dp
      else do
        let found ← dirlookup dp name
        match found with
        | none => unlinkBad dp
        | some (ip, off) => do
          ilock ip
          let inode ← inodeAt ip
          if inode.nlink = 0 ∨ 2 ^ 15 ≤ inode.nlink then kernelPanic "unlink: nlink < 1"
          else do
            let empty ← removable ip
            if empty then unlinkEntry dp ip off
            else do
              iunlockput ip
              unlinkBad dp) := by
  refine Runs.after touches_ilock fun _ => closes_unlinkBad.ite ?_
  refine Runs.bind (shifts_dirlookup name) fun present => ?_
  cases present with
  | none => exact closes_unlinkBad.congr fun _ => (sub_zero _).symm
  | some entry =>
    obtain ⟨ip, off⟩ := entry
    refine Runs.after touches_ilock fun _ => Runs.reading fun inode => ?_
    refine (Runs.panic (by decide)).ite (Runs.after touches_removable fun empty => ?_)
    refine Runs.ite (closes_unlinkEntry off) ?_
    refine Runs.bind shifts_iunlockput fun _ => closes_unlinkBad.congr fun _ => ?_
    simp only [found]
    abel

end Entries

/-! ## Lookups -/

section Lookups

variable {state : State}

/-- The kernel when a call begins: no transaction is active, the counts are not
negative and the working directory is referenced. -/
structure Entered (state : State) : Prop where
  idle : state.log.busy = false
  counted : ∀ slot, 0 ≤ (state.icache slot).ref
  rooted : 0 < (state.icache state.cwd).ref

theorem foundInode_self (ip : Slot) : 0 < foundInode (some ip) ip := by
  rw [foundInode, one_self]
  decide

section

variable (entered : Entered state) {next : State}
include entered

theorem Entered.shifted {taken : Slot → Int} (browsing : Browsing state taken next) :
    Shifted state taken false next := by
  have shifted := browsing.shifted
  rwa [entered.idle] at shifted

theorem Entered.iunlockput_wp {ip : Slot} (browsing : Browsing state (foundInode (some ip)) next)
    (browsable : Browsable state) : TransWp (iunlockput ip) next (fun _ => Shifted state 0 false) := by
  refine (browsing.iunlockput_wp browsable (foundInode_self ip)).post fun _ last done => ?_
  have shifted := entered.shifted done
  rwa [foundInode, sub_self] at shifted

end

theorem sys_link_wp (entered : Entered state) (browsable : Browsable state) (old new : List Byte) :
    TransWp (sys_link old new) state (fun _ => Carried state 0 false) := by
  refine Wp.seq ((Browsing.refl entered.counted).namei_wp browsable entered.rooted old) ?_
  intro result next browsing
  have looked := (entered.shifted browsing).carried
  cases result with
  | none => exact Wp.pure looked
  | some ip =>
    refine (closes_linkInode new).wp.post fun _ last done => ?_
    have after := looked.trans done.carried
    rwa [foundInode, add_neg_cancel] at after

theorem sys_unlink_wp (entered : Entered state) (browsable : Browsable state) (path : List Byte) :
    TransWp (sys_unlink path) state (fun _ => Carried state 0 false) := by
  refine Wp.seq ((Browsing.refl entered.counted).namex_wp browsable entered.rooted path true) ?_
  intro result next browsing
  have looked := (entered.shifted browsing).carried
  cases result with
  | none => exact Wp.pure looked
  | some parent =>
    obtain ⟨dp, name⟩ := parent
    refine (closes_unlink name).wp.post fun _ last done => ?_
    have after := looked.trans done.carried
    rwa [found, add_neg_cancel] at after

/-- Leaving the working directory does not drop the last reference to an inode
without links. -/
def Leaves (state : State) : Prop :=
  1 < (state.icache state.cwd).ref ∨
    if (state.icache state.cwd).valid = true then (state.icache state.cwd).nlink ≠ 0
    else ∀ block, state.Offers (IBLOCK (state.icache state.cwd).inum) block →
      (dinodeAt block ((state.icache state.cwd).inum % IPB)).nlink ≠ 0

theorem Browsing.leaves {taken : Slot → Int} {current : State}
    (browsing : Browsing state taken current) (rooted : 0 < (state.icache state.cwd).ref)
    (leaves : Leaves state) : Safe current state.cwd := by
  rintro ⟨last, valid, unlinked⟩
  have slot := browsing.slots state.cwd
  have taking := slot.taking
  rw [slot.ref] at last
  rcases leaves with many | linked
  · omega
  · cases slot.loaded (by rw [slot.ref]; omega) valid with
    | before _ before same =>
      rw [if_pos before] at linked
      rw [same] at unlinked
      exact linked unlinked
    | read fresh offered same typed =>
      rw [slot.named rooted] at offered same
      rw [if_neg (Bool.eq_false_iff.mp (fresh rooted))] at linked
      rw [same] at unlinked
      exact linked _ offered unlinked

theorem sys_chdir_wp (entered : Entered state) (browsable : Browsable state) (leaves : Leaves state)
    (path : List Byte) : TransWp (sys_chdir path) state (fun _ next => ∃ before,
      Carried state (one next.cwd - one state.cwd) false before ∧ next = { before with cwd := next.cwd }) := by
  have stay : ∀ next, Carried state 0 false next → ∃ before, Carried state (one next.cwd - one state.cwd) false before ∧
        next = { before with cwd := next.cwd } := fun next carried =>
    ⟨next, by rw [carried.cwd, sub_self]; exact carried, rfl⟩
  refine Wp.seq ((Browsing.refl entered.counted).namei_wp browsable entered.rooted path) ?_
  intro result next browsing
  cases result with
  | none => exact Wp.pure (stay next (entered.shifted browsing).carried)
  | some ip =>
    refine Wp.seq browsing.ilock_wp ?_
    rintro _ locked ⟨lockedBrowsing, _, _⟩
    refine Wp.peek (Wp.ite (fun _ => ?_) fun _ => ?_)
    · exact Wp.seq (entered.iunlockput_wp lockedBrowsing browsable) fun _ last done => Wp.pure (stay last done.carried)
    · refine Wp.seq lockedBrowsing.iunlock_wp fun _ unlocked unlockedBrowsing => ?_
      refine Wp.see ?_
      rw [unlockedBrowsing.cwd]
      refine Wp.seq (iput_safe (unlockedBrowsing.leaves entered.rooted leaves)) ?_
      rintro _ _ rfl
      refine Wp.set (Wp.pure ⟨_, ?_, rfl⟩)
      have after := unlockedBrowsing.shifted.carried.trans (shifted_drop state.cwd).carried
      rw [congrArg Log.busy unlockedBrowsing.log, entered.idle] at after
      rwa [sub_eq_add_neg]

end Lookups

/-! ## Running programs -/

/-- What holds of code that reads the inode in slot `ip`. -/
structure Reading (ip : Slot) (P : (α : Type) → FsM α → Prop) : Prop where
  pure : ∀ {α : Type} (value : α), P α (Pure.pure value)
  panic : ∀ {α : Type} {message : String}, message ≠ "write outside of trans" → P α (kernelPanic message)
  ite : ∀ {α : Type} {condition : Prop} [Decidable condition] {yes no : FsM α},
    P α yes → P α no → P α (if condition then yes else no)
  bind : ∀ {α β : Type} {first : FsM β} {rest : β → FsM α},
    P β first → (∀ value, P α (rest value)) → P α (first >>= rest)
  readi : ∀ {off n : Nat}, n < 2 ^ 32 → P _ (Xv6Dedup.readi ip off n)

namespace Reading

variable {ip : Slot} {P : (α : Type) → FsM α → Prop} (reading : Reading ip P)
include reading

theorem loaduvm (memory : Memory) (addr offset sz : Nat) : P _ (loaduvm memory addr ip offset sz) := by
  have pages (count i : Nat) : P _ (loadPages memory addr ip offset sz count i) := by
    induction count generalizing i with
    | zero => exact reading.pure true
    | succ count ih =>
      refine reading.ite (reading.pure true) (reading.ite (reading.panic (by decide)) ?_)
      have small : min (sz - i) PGSIZE < 2 ^ 32 := lt_of_le_of_lt (Nat.min_le_right _ _) (by decide)
      exact reading.bind (reading.readi small) fun _ => reading.ite (reading.pure false) (ih _)
  exact reading.ite (reading.panic (by decide)) (pages _ _)

theorem loadImage (memory : Memory) : P _ (loadImage memory ip) := by
  have segments (count off sz : Nat) : P _ (loadSegments memory ip count off sz) := by
    induction count generalizing off sz with
    | zero => exact reading.pure true
    | succ count ih =>
      refine reading.bind (reading.readi (by decide)) fun _ => reading.ite (reading.pure false) ?_
      refine reading.ite (ih _ _) (reading.ite (reading.pure false) (reading.ite (reading.pure false) ?_))
      exact reading.bind (reading.loaduvm memory _ _ _) fun _ => reading.ite (ih _ _) (reading.pure false)
  refine reading.bind (reading.readi (by decide)) fun _ => reading.ite (reading.pure false) ?_
  exact reading.ite (reading.pure false) (reading.ite (reading.pure false) (segments _ _ _))

end Reading

section Running

variable {α : Type} {start : State} {taken : Slot → Int} {ip : Slot}

/-- The program only reads the inode in slot `ip`. -/
def ReadsInode (start : State) (taken : Slot → Int) (ip : Slot) (program : FsM α) : Prop :=
  ∀ state, Browsing start taken state → 0 < (state.icache ip).ref → (state.icache ip).valid = true →
    TransWp program state (fun _ => Browsing.Reads start taken state)

theorem reading_readsInode (browsable : Browsable start) :
    Reading ip fun _ program => ReadsInode start taken ip program where
  pure _ _ browsing _ _ := Wp.pure ⟨browsing, rfl⟩
  panic other _ _ _ _ := Wp.throw fun same => other (Stop.panic.inj same)
  ite yes no state browsing used valid :=
    Wp.ite (fun _ => yes state browsing used valid) fun _ => no state browsing used valid
  bind first rest state browsing used valid := by
    refine Wp.seq (first state browsing used valid) ?_
    rintro value next ⟨nextBrowsing, same⟩
    rw [← congrFun same ip] at used valid
    exact (rest value next nextBrowsing used valid).post fun _ _ done => ⟨done.1, done.2.trans same⟩
  readi small _ browsing used valid := (browsing.readi_wp browsable used valid small).post fun _ _ done => done.2

theorem exec_wp {state : State} (entered : Entered state) (browsable : Browsable state)
    (path : List Byte) (memory : Memory) : TransWp (exec path memory) state (fun _ => Carried state 0 false) := by
  refine Wp.seq ((Browsing.refl entered.counted).namei_wp browsable entered.rooted path) ?_
  intro result next browsing
  cases result with
  | none => exact Wp.pure (entered.shifted browsing).carried
  | some ip =>
    refine Wp.seq browsing.ilock_wp ?_
    rintro _ locked ⟨lockedBrowsing, valid, _⟩
    refine Wp.seq ((reading_readsInode browsable).loadImage memory locked lockedBrowsing (lockedBrowsing.used (foundInode_self ip)) valid) ?_
    rintro loaded read ⟨readBrowsing, _⟩
    exact Wp.seq (entered.iunlockput_wp readBrowsing browsable) fun _ last done => Wp.pure done.carried

end Running

/-! ## Opening -/

section Opening

variable {state : State} {dp ip : Slot}

private theorem Touches.anyway {α : Type} {program : FsM α} (touches : Touches ip program)
    {start : State} (before : Confined ip start state) : Yields program state (fun _ => Confined ip start) :=
  (touches.after before).yields

theorem dirlink_confined (name : List Byte) (inum : Nat) :
    Yields (dirlink dp name inum) state (fun r next => 0 ≤ r → Confined dp state next) := by
  have scan : ∀ count off current, Confined dp state current → Yields (dirlookupFrom dp name count off) current
        (fun result next => result = none → Confined dp state next) := by
    intro count
    induction count with
    | zero => exact fun off current confined => Wp.pure fun _ => confined
    | succ count ih =>
      intro off current confined
      refine Wp.seq ((touches_inodeAt dp).anyway confined) fun inode first firstConfined => ?_
      refine Wp.ite (fun _ => Wp.pure fun _ => firstConfined) fun _ => ?_
      refine Wp.seq ((touches_readDirent off (by decide)).anyway firstConfined) fun de second secondConfined => ?_
      refine Wp.ite (fun _ => ?_) fun _ => ih _ second secondConfined
      exact Wp.seq (Wp.anyhow fun _ _ => trivial) fun _ _ (_ : True) => Wp.pure nofun
  have here := (slotFrame dp).refl state
  have look : Yields (dirlookup dp name) state (fun result next => result = none → Confined dp state next) := by
    refine Wp.seq ((touches_inodeAt dp).anyway here) fun inode first firstConfined => ?_
    exact Wp.guard trivial fun _ => scan _ _ first firstConfined
  refine Wp.seq look fun present first absent => ?_
  cases present with
  | some entry =>
    exact Wp.seq (Wp.anyhow fun _ _ => trivial) fun _ _ (_ : True) =>
      Wp.pure fun succeeded => absurd succeeded (by decide)
  | none =>
    refine Wp.seq ((touches_inodeAt dp).anyway (absent rfl)) fun inode second secondConfined => ?_
    refine Wp.seq ((touches_emptyFrom _ _).anyway secondConfined) fun off third thirdConfined => ?_
    refine Wp.seq ((touches_writei _ _ _).anyway thirdConfined) fun r fourth fourthConfined => ?_
    exact Wp.guard trivial fun _ => Wp.pure fun _ => fourthConfined

theorem ialloc_locked (locked : (state.icache dp).busy = true) (used : 0 < (state.icache dp).ref) (type : Nat) :
    Yields (ialloc type) state (fun ip next => ip = dp → (next.icache ip).busy = true) := by
  have quietly : ∀ {α : Type} {program : FsM α} {current : State},
      (∀ slot, Touches slot program) → current.icache = state.icache →
      Yields program current (fun _ next => next.icache = state.icache) := fun touches same =>
    (icache_of_touches touches).mono (fun _ _ done => done.2.trans same) fun _ _ _ => trivial
  have take : ∀ inum current, current.icache = state.icache →
      Yields (iget inum) current (fun ip next => ip = dp → (next.icache ip).busy = true) := by
    intro inum current same
    refine Wp.see ?_
    cases current.findInode inum with
    | some slot =>
      refine Wp.set (Wp.pure ?_)
      rintro rfl
      simp only [State.setInode, update_self]
      rw [same]
      exact locked
    | none =>
      cases empty : current.emptyInode with
      | none => exact Wp.throw trivial
      | some slot =>
        have unused := State.emptyInode_some empty
        rw [same] at unused
        refine Wp.set (Wp.pure ?_)
        rintro rfl
        omega
  have scan : ∀ count inum current, current.icache = state.icache → Yields (iallocFrom type count inum) current
        (fun ip next => ip = dp → (next.icache ip).busy = true) := by
    intro count
    induction count with
    | zero => exact fun _ _ _ => Wp.throw trivial
    | succ count ih =>
      intro inum current same
      refine Wp.seq (quietly (fun _ => touches_bread _) same) fun bp first firstSame => ?_
      refine Wp.seq (quietly (fun _ => touches_bdata _) firstSame) fun data second secondSame => ?_
      refine Wp.ite (fun _ => ?_) fun _ => ?_
      · refine Wp.seq (quietly (fun _ => touches_bset _ _) secondSame) fun _ third thirdSame => ?_
        refine Wp.seq (quietly (fun _ => touches_log_write _) thirdSame) fun _ fourth fourthSame => ?_
        exact Wp.seq (quietly (fun _ => touches_brelse _) fourthSame) fun _ fifth fifthSame => take inum fifth fifthSame
      · exact Wp.seq (quietly (fun _ => touches_brelse _) secondSame) fun _ third thirdSame => ih _ third thirdSame
  exact Wp.seq (quietly (fun _ => touches_readsb) rfl) fun sb next same => scan _ _ next same

theorem ilock_apart : Yields (ilock ip) state
    (fun _ next => (state.icache ip).busy = false ∧ Confined ip state next) := by
  have idle : Yields (ilock ip) state (fun _ _ => (state.icache ip).busy = false) := by
    refine Wp.peek ?_
    refine Wp.guard trivial fun _ => ?_
    refine Wp.guard trivial fun unlocked => Wp.anyhow fun _ _ => ?_
    exact Bool.eq_false_iff.mpr unlocked
  exact (idle.and (touches_ilock.anyway ((slotFrame ip).refl state))).yields

theorem iunlockput_others : Yields (iunlockput dp) state
    (fun _ next => ∀ slot, slot ≠ dp → next.icache slot = state.icache slot) := by
  refine Wp.seq (touches_iunlock.anyway ((slotFrame dp).refl state)) fun _ first firstConfined => ?_
  refine Wp.seq ((touches_inodeAt dp).anyway firstConfined) fun inode second secondConfined => ?_
  refine Wp.seq (Touches.anyway touches_iputFree.onlyIf secondConfined) fun _ third thirdConfined => ?_
  refine Wp.change fun slot other => ?_
  simp only [State.setInode, update_of_ne other]
  exact thirdConfined.others slot other

theorem createNew_linked (locked : (state.icache dp).busy = true) (used : 0 < (state.icache dp).ref)
    (name : List Byte) {type : Nat} (file : type ≠ T_DIR) (major minor : Nat) :
    Yields (createNew dp name type major minor) state
      (fun made next => ∀ ip, made = some ip → (next.icache ip).nlink = 1) := by
  refine Wp.seq (ialloc_locked locked used type) fun ip first same => ?_
  refine Wp.seq ilock_apart ?_
  rintro _ second ⟨idle, _⟩
  have apart : ip ≠ dp := fun this => by
    rw [same this] at idle
    cases idle
  refine Wp.peek (Wp.set ?_)
  have linked : ((second.setInode ip { second.icache ip with
      major := major, minor := minor, nlink := 1 }).icache ip).nlink = 1 := by
    simp only [State.setInode, update_self]
  refine Wp.seq ((icache_of_touches fun _ => touches_iupdate ip).yields) ?_
  rintro _ third ⟨_, thirdSame⟩
  rw [← thirdSame] at linked
  refine Wp.bind (Wp.onlyIf (fun directory => absurd directory file) fun _ => ?_)
  refine Wp.seq (dirlink_confined name _) fun r fourth confined => ?_
  refine Wp.guard trivial fun succeeded => ?_
  rw [← (confined (not_lt.mp succeeded)).others ip apart] at linked
  refine Wp.seq iunlockput_others fun _ fifth others => Wp.pure fun other made => ?_
  cases made
  rw [others ip apart]
  exact linked

theorem create_wp (state : State) (counted : ∀ slot, 0 ≤ (state.icache slot).ref)
    (rooted : 0 < (state.icache state.cwd).ref) (logging : state.log.busy = true)
    (browsable : Browsable state) (path : List Byte) {type : Nat} (file : type ≠ T_DIR) (major minor : Nat) :
    TransWp (create path type major minor) state (fun made next => Shifted state (foundInode made) true next ∧
        ∀ ip, made = some ip → Safe next ip) := by
  have safe : Yields (create path type major minor) state (fun made next => ∀ ip, made = some ip → Safe next ip) := by
    refine Wp.seq (((Browsing.refl counted).namex_wp browsable rooted path true).yields) ?_
    intro parent first browsing
    cases parent with
    | none => exact Wp.pure nofun
    | some parent =>
      obtain ⟨dp, name⟩ := parent
      have takes : 0 < found (some (dp, name)) dp := by
        rw [found, one_self]
        decide
      refine Wp.seq (browsing.ilock_wp.yields) ?_
      rintro _ second ⟨secondBrowsing, valid, locked⟩
      have used := secondBrowsing.used takes
      refine Wp.seq ((secondBrowsing.dirlookup_wp browsable used valid name).yields) ?_
      rintro present third ⟨thirdBrowsing, absent⟩
      cases present with
      | none =>
        rw [← absent rfl] at locked used
        refine (createNew_linked locked used name file major minor).post ?_
        rintro made next linked ip rfl ⟨_, _, unlinked⟩
        rw [linked ip rfl] at unlinked
        cases unlinked
      | some entry =>
        obtain ⟨ip, off⟩ := entry
        have both : 0 < (found (some (dp, name)) + found (some (ip, off))) dp :=
          lt_of_lt_of_le takes (le_add_of_nonneg_right (one_nonneg ip dp))
        have left : 0 < (found (some (dp, name)) + found (some (ip, off)) - one dp) ip := by
          rw [found, found, add_sub_cancel_left, one_self]
          decide
        refine Wp.seq ((thirdBrowsing.iunlockput_wp browsable both).yields) fun _ fourth fourthBrowsing => ?_
        refine Wp.seq (fourthBrowsing.ilock_wp.yields) ?_
        rintro _ fifth ⟨fifthBrowsing, _, _⟩
        refine Wp.peek (Wp.ite (fun _ => Wp.pure ?_) fun _ => ?_)
        · intro other made
          cases made
          exact fifthBrowsing.keeps browsable left
        · exact Wp.seq (Wp.anyhow fun _ _ => trivial) fun _ _ (_ : True) => Wp.pure nofun
  refine ((moves_create path type major minor state).and safe).mono (fun _ _ both => ?_) fun _ _ both => both.1 logging
  rw [logging] at both
  exact ⟨both.1.toShifted, both.2⟩

theorem openInode_wp (entered : Entered state) (browsable : Browsable state) (path : List Byte) (omode : Nat) :
    TransWp (openInode path omode) state (fun opened next => Shifted state (foundInode opened) false next ∧
        ∀ ip, opened = some ip → Safe next ip) := by
  refine Wp.ite (fun _ => ?_) fun _ => ?_
  · refine Wp.seq begin_trans_wp ?_
    rintro _ _ rfl
    have within : Browsable { state with log := { state.log with busy := true } } :=
      { browsable with }
    refine Wp.seq (create_wp { state with log := { state.log with busy := true } } entered.counted
      entered.rooted rfl within path (by decide) 0 0) ?_
    rintro made created ⟨shifted, safe⟩
    refine Wp.seq (commit_trans_keeps.logged shifted.logging) ?_
    rintro _ next ⟨closed, same⟩
    have after := shifted.trans closed.toShifted
    rw [add_zero] at after
    exact Wp.pure ⟨{ after with }, fun ip opened => (safe ip opened).congr same⟩
  · refine Wp.seq ((Browsing.refl entered.counted).namei_wp browsable entered.rooted path) ?_
    intro result next browsing
    cases result with
    | none => exact Wp.pure ⟨entered.shifted browsing, nofun⟩
    | some ip =>
      refine Wp.seq browsing.ilock_wp ?_
      rintro _ locked ⟨lockedBrowsing, _, _⟩
      refine Wp.peek (Wp.ite (fun _ => ?_) fun _ => ?_)
      · exact Wp.seq (entered.iunlockput_wp lockedBrowsing browsable) fun _ last done => Wp.pure ⟨done, nofun⟩
      · refine Wp.pure ⟨entered.shifted lockedBrowsing, fun other opened => ?_⟩
        cases opened
        exact lockedBrowsing.keeps browsable (foundInode_self ip)

theorem filealloc_wp (closed : state.Closed) : TransWp filealloc state
      (fun allocated next => Carried state 0 state.log.busy next ∧ next.icache = state.icache ∧
        ∀ f, allocated = some f → (next.ftable f).type = .none ∧ (next.ftable f).ref = 1) := by
  refine Wp.see ?_
  cases present : (List.finRange NFILE).find? fun f => decide ((state.ftable f).ref = 0) with
  | none => exact Wp.pure ⟨Carried.refl state, rfl, nofun⟩
  | some f =>
    have unused : (state.ftable f).ref = 0 := by
      have accepted := List.find?_some present
      simpa using accepted
    refine Wp.set (Wp.pure ⟨?_, rfl, fun other same => ?_⟩)
    · exact carried_refile rfl rfl fun _ zero => absurd zero (by simp)
    · cases same
      simp only [State.setFile, update_self, and_true]
      exact closed f unused

theorem fileclose_unopened {f : Fin NFILE} (type : (state.ftable f).type = .none) (ref : (state.ftable f).ref = 1) :
    TransWp (fileclose f) state (fun _ next => Carried state 0 state.log.busy next ∧ next.icache = state.icache) := by
  refine Wp.peek ?_
  refine Wp.guard (by decide) fun _ => Wp.ite (fun more => ?_) fun _ => ?_
  · omega
  · refine Wp.set ?_
    have carried : Carried state 0 state.log.busy (state.setFile f { state.ftable f with ref := 0, type := .none }) :=
      carried_refile type.symm rfl fun _ _ => rfl
    rw [type]
    exact Wp.pure ⟨carried, rfl⟩

theorem sys_open_wp (entered : Entered state) (closed : state.Closed) (browsable : Browsable state)
    (ofile : Ofile) (path : List Byte) (omode : Nat) :
    TransWp (sys_open ofile path omode) state (fun _ => Carried state 0 false) := by
  refine Wp.seq (openInode_wp entered browsable path omode) ?_
  rintro opened first ⟨shifted, safe⟩
  have looked := shifted.carried
  cases opened with
  | none => exact Wp.pure looked
  | some ip =>
    refine Wp.seq (filealloc_wp (looked.closed closed)) ?_
    rintro allocated second ⟨secondCarried, secondSame, fresh⟩
    rw [looked.logging] at secondCarried
    have both := looked.same secondCarried
    have secondSafe := (safe ip rfl).congr secondSame
    cases allocated with
    | none =>
      refine Wp.seq (iunlockput_safe secondSafe) fun _ third dropped => Wp.pure ?_
      have after := both.trans dropped.carried
      rwa [foundInode, add_neg_cancel, both.logging] at after
    | some f =>
      obtain ⟨type, ref⟩ := fresh f rfl
      cases allocating : fdalloc ofile f with
      | none =>
        simp only [allocating]
        refine Wp.seq (fileclose_unopened type ref) ?_
        rintro _ third ⟨thirdCarried, thirdSame⟩
        have closing := both.same thirdCarried
        rw [both.logging] at closing
        refine Wp.seq (iunlockput_safe (secondSafe.congr thirdSame)) fun _ fourth dropped => Wp.pure ?_
        have after := closing.trans dropped.carried
        rwa [foundInode, add_neg_cancel, closing.logging] at after
      | some descriptor =>
        simp only [allocating]
        refine Wp.seq iunlock_wp ?_
        rintro _ _ rfl
        have unlocked : Confined ip second (second.setInode ip { second.icache ip with busy := false }) :=
          ((slotFrame ip).refl second).setInode rfl
        refine Wp.peek (Wp.set (Wp.pure ?_))
        have total : ∀ final, Carried (second.setInode ip { second.icache ip with busy := false })
            (-one ip) second.log.busy final → Carried state 0 false final := by
          intro final opening
          have after := (both.confined unlocked).trans opening
          rwa [foundInode, add_neg_cancel, both.logging] at after
        refine total _ (carried_setFile (fun slot => ?_) fun _ zero => ?_)
        · simp only [File.on, State.setInode, type, true_and, reduceCtorEq, false_and, if_false,
            Pi.neg_apply, sub_neg_eq_add, zero_add, Pi.single_apply, eq_comm]
        · change (second.ftable f).ref = 0 at zero
          rw [ref] at zero
          cases zero

end Opening

end Xv6Dedup
