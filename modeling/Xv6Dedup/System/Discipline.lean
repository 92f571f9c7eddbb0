import Xv6Dedup.Dedup.Outcome
import Xv6Dedup.Mkfs.Outcome
import Xv6Dedup.System.Machine
import Xv6Dedup.System.Pipes

/-!
# Transaction discipline

Processes make system calls one after another. The calls that walk paths,
leave a working directory or deduplicate work outside transactions in part;
when they find the file system as they need it, no call writes outside a
transaction.
-/

set_option autoImplicit false

namespace Xv6Dedup

open Program

/-! ## One call -/

/-- What a call needs to find: path lookup must be able to do without writing,
a process must not be the last user of a removed directory that it leaves, and
deduplication must find a consistent file system. -/
def Careful (state : State) (proc : Proc) : Call → Prop
  | .link _ _ => Browsable state
  | .unlink _ => Browsable state
  | .openFile _ _ => Browsable state
  | .exec _ _ => Browsable state
  | .chdir _ => Browsable state ∧ Leaves { state with cwd := proc.cwd }
  | .exit => Stays proc.cwd (state.openOn proc.ofile proc.cwd (List.finRange NOFILE)) state
  | .dedup => Quiet state ∧ Runnable state ∧ FewSharers state.disk (sharesOf state.disk).ptr
  | .dup _ => True
  | .write _ _ _ => True
  | .close _ => True
  | .mkdir _ => True
  | .mknod _ _ _ => True
  | .fork _ => True
  | .pipe _ _ => True

/-- The references that a process holds through its working directory. -/
def inDirectory (slot : Slot) : Option Proc → Int
  | none => 0
  | some proc => one proc.cwd slot

/-- The kernel after a call, with the change of the references that working
directories account for. -/
structure Served (state : State) (delta : Slot → Int) (next : State) : Prop where
  idle : next.log.busy = false
  closed : next.Closed
  balance : ∀ slot, next.balance slot = state.balance slot + delta slot

theorem Carried.served {state next : State} {delta : Slot → Int}
    (carried : Carried state delta false next) (closed : state.Closed) : Served state delta next :=
  ⟨carried.logging, carried.closed closed, carried.balance⟩

theorem Quiet.enter {state : State} (quiet : Quiet state) (cwd : Slot) : Quiet { state with cwd := cwd } :=
  { quiet with calm := { quiet.calm with } }

theorem Browsable.enter {state : State} (browsable : Browsable state) (cwd : Slot) :
    Browsable { state with cwd := cwd } :=
  { browsable with }

theorem dedup_served {state : State} (quiet : Quiet state) (runnable : Runnable state)
    (few : FewSharers state.disk (sharesOf state.disk).ptr) (closed : state.Closed) :
    FsWp .full dedup state (fun _ => Served state 0) (fun reason _ => reason ≠ outsideTrans) := by
  refine (dedup_wp quiet).mono ?_ ?_
  · rintro _ next ⟨image, between⟩
    have files := between.core.files
    have log : next.log.busy = state.log.busy := congrArg Log.busy between.core.log
    refine ⟨log.trans quiet.calm.logFree, ?_, fun slot => ?_⟩
    · unfold State.Closed
      rw [files]
      exact closed
    · unfold State.balance
      rw [files, between.core.cache.refs slot]
      simp
  · rintro reason next (unable | ⟨many, _⟩)
    · exact absurd runnable unable
    · exact absurd few many

section Perform

variable {state : State} {proc : Proc}

/-- What a call must do to the references of working directories. -/
def Accounts (state : State) (proc : Proc) (outcome : Outcome) (next : State) : Prop :=
  Served state (fun slot => inDirectory slot outcome.caller + inDirectory slot outcome.child -
    inDirectory slot (some proc)) next

private theorem accounts_of_served {outcome : Outcome} {delta : Slot → Int} {next : State}
    (served : Served { state with cwd := proc.cwd } delta next)
    (same : ∀ slot, delta slot = inDirectory slot outcome.caller + inDirectory slot outcome.child -
      inDirectory slot (some proc)) : Accounts state proc outcome next :=
  ⟨served.idle, served.closed, fun slot => (served.balance slot).trans (by rw [same slot]; rfl)⟩

private theorem accounts_of_carried {outcome : Outcome} {next : State} (closed : state.Closed)
    (carried : Carried { state with cwd := proc.cwd } 0 false next) {ofile : Ofile}
    (caller : outcome.caller = some { proc with ofile := ofile }) (child : outcome.child = none) :
    Accounts state proc outcome next := by
  refine accounts_of_served (carried.served closed) fun slot => ?_
  rw [caller, child]
  simp only [inDirectory, add_zero, sub_self, Pi.zero_apply]

private theorem sys_dup_wp (idle : state.log.busy = false) (ofile : Ofile) (fd : Int) :
    TransWp (sys_dup ofile fd) state (fun _ => Carried state 0 false) := by
  unfold sys_dup
  cases argfd ofile fd with
  | none => exact Wp.pure (.idle idle)
  | some entry =>
    obtain ⟨_, f⟩ := entry
    cases allocating : fdalloc ofile f with
    | none =>
      simp only [allocating]
      exact Wp.pure (.idle idle)
    | some descriptor =>
      simp only [allocating]
      refine Wp.seq (filedup_wp f) fun _ next kept => Wp.pure ?_
      exact idle ▸ kept.1

private theorem sys_write_wp (idle : state.log.busy = false) (ofile : Ofile) (fd : Int) (p : Nat → Byte) (n : Int) :
    TransWp (sys_write ofile fd p n) state (fun _ => Carried state 0 false) := by
  unfold sys_write
  cases argfd ofile fd with
  | none => exact Wp.pure (.idle idle)
  | some entry => exact filewrite_wp idle entry.2 p n

private theorem sys_close_wp (idle : state.log.busy = false) (ofile : Ofile) (fd : Int) :
    TransWp (sys_close ofile fd) state (fun _ => Carried state 0 false) := by
  unfold sys_close
  cases argfd ofile fd with
  | none => exact Wp.pure (.idle idle)
  | some entry =>
    exact Wp.seq (fileclose_wp idle entry.2 0 0) fun _ next closing => Wp.pure closing.1

theorem perform_wp (initproc : Bool) (call : Call) (entered : Entered { state with cwd := proc.cwd })
    (closed : state.Closed) (careful : Careful state proc call)
    (free : ∀ fetched p, call = .pipe fetched (some p) → state.pipes p = none) {memo : Memo}
    (allowed : MemoOk .full memo) :
    ∃ Hidden : Memo → Prop, Hidden memo ∧ Wp Hidden (perform initproc proc call) state
      (fun outcome => Accounts state proc outcome)
      (fun reason _ => reason ≠ outsideTrans) := by
  by_cases merges : call = .dedup
  · subst merges
    obtain ⟨quiet, runnable, few⟩ := careful
    refine ⟨MemoOk .full, allowed, Wp.set ?_⟩
    refine Wp.seq (dedup_served (quiet.enter proc.cwd) ⟨runnable.room, runnable.linked⟩ few closed)
      fun _ next served => Wp.pure (accounts_of_served served fun slot => ?_)
    simp [inDirectory]
  refine ⟨fun _ => True, trivial, Wp.set ?_⟩
  cases call with
  | dedup => exact absurd rfl merges
  | dup fd =>
    exact Wp.seq (sys_dup_wp entered.idle proc.ofile fd) fun _ next carried =>
      Wp.pure (accounts_of_carried closed carried rfl rfl)
  | write fd p n =>
    exact Wp.seq (sys_write_wp entered.idle proc.ofile fd p n) fun _ next carried =>
      Wp.pure (accounts_of_carried closed carried rfl rfl)
  | close fd =>
    exact Wp.seq (sys_close_wp entered.idle proc.ofile fd) fun _ next carried =>
      Wp.pure (accounts_of_carried closed carried rfl rfl)
  | link old new =>
    exact Wp.seq (sys_link_wp entered (careful.enter proc.cwd) old new) fun _ next carried =>
      Wp.pure (accounts_of_carried closed carried rfl rfl)
  | unlink path =>
    exact Wp.seq (sys_unlink_wp entered (careful.enter proc.cwd) path) fun _ next carried =>
      Wp.pure (accounts_of_carried closed carried rfl rfl)
  | openFile path omode =>
    exact Wp.seq (sys_open_wp entered closed (careful.enter proc.cwd) proc.ofile path omode)
      fun _ next carried => Wp.pure (accounts_of_carried closed carried rfl rfl)
  | mkdir path | mknod path major minor =>
    exact Wp.seq (makeNode_wp path _ _ _) fun _ next moved =>
      Wp.pure (accounts_of_carried closed moved.carried rfl rfl)
  | chdir path =>
    refine Wp.seq (sys_chdir_wp entered (careful.1.enter proc.cwd) careful.2 path) ?_
    rintro _ next ⟨before, carried, moved⟩
    refine Wp.see (Wp.pure ?_)
    have served := carried.served closed
    have here : Served { state with cwd := proc.cwd } (one next.cwd - one proc.cwd) next := by
      rw [moved]
      exact ⟨served.idle, served.closed, served.balance⟩
    exact accounts_of_served here fun slot => by simp [inDirectory]
  | exec path memory =>
    exact Wp.seq (exec_wp entered (careful.enter proc.cwd) path memory) fun _ next carried =>
      Wp.pure (accounts_of_carried closed carried rfl rfl)
  | fork child =>
    cases child with
    | none => exact Wp.pure (accounts_of_carried closed (.idle entered.idle) rfl rfl)
    | some child =>
      refine Wp.seq (fork_wp proc.ofile) ?_
      rintro cwd next ⟨rfl, carried⟩
      rw [entered.idle] at carried
      refine Wp.pure (accounts_of_served (carried.served closed) fun slot => ?_)
      simp [inDirectory]
  | exit =>
    refine Wp.seq (exit_wp entered.idle initproc proc.ofile careful) fun _ next carried => ?_
    refine Wp.pure (accounts_of_served (carried.served closed) fun slot => ?_)
    simp [inDirectory]
  | pipe fetched page =>
    have unused : ∀ p, page = some p → { state with cwd := proc.cwd }.pipes p = none :=
      fun p given => free fetched p (by rw [given])
    have enteredClosed : { state with cwd := proc.cwd }.Closed := closed
    refine Wp.seq (sys_pipe_wp enteredClosed proc.ofile fetched unused) fun _ next piped => ?_
    have carried := piped.carried enteredClosed
    rw [entered.idle] at carried
    exact Wp.pure (accounts_of_carried closed carried rfl rfl)

end Perform

/-! ## Whole runs -/

theorem inDirectory_nonneg (slot : Slot) (entry : Option Proc) : 0 ≤ inDirectory slot entry := by
  cases entry with
  | none => exact le_refl _
  | some proc => exact one_nonneg _ _

/-- Between calls no transaction is active, and open files and working
directories account for every reference to a cached inode. -/
structure Accounted (machine : Machine) : Prop where
  idle : machine.kernel.log.busy = false
  closed : machine.kernel.Closed
  balance : ∀ slot, machine.kernel.balance slot = ∑ pid, inDirectory slot (machine.procs pid)

section Accounted

variable {machine after : Machine} {pid : Fin NPROC} {call : Call}

private theorem ref_eq (accounted : Accounted machine) (slot : Slot) : (machine.kernel.icache slot).ref =
      ∑ pid, inDirectory slot (machine.procs pid) + ∑ f, (machine.kernel.ftable f).on slot := by
  have balance := accounted.balance slot
  unfold State.balance at balance
  omega

private theorem on_nonneg (state : State) (slot : Slot) : 0 ≤ ∑ f, (state.ftable f).on slot :=
  Finset.sum_nonneg fun f _ => by
    unfold File.on
    split <;> decide

theorem Accounted.entered (accounted : Accounted machine) {proc : Proc} (active : machine.procs pid = some proc) :
    Entered { machine.kernel with cwd := proc.cwd } where
  idle := accounted.idle
  counted := fun slot => by
    have directories : 0 ≤ ∑ pid, inDirectory slot (machine.procs pid) :=
      Finset.sum_nonneg fun pid _ => inDirectory_nonneg slot (machine.procs pid)
    have files := on_nonneg machine.kernel slot
    have total := ref_eq accounted slot
    exact total ▸ add_nonneg directories files
  rooted := by
    have directories : inDirectory proc.cwd (machine.procs pid) ≤ ∑ pid, inDirectory proc.cwd (machine.procs pid) :=
      Finset.single_le_sum (fun pid _ => inDirectory_nonneg proc.cwd (machine.procs pid)) (Finset.mem_univ pid)
    have files := on_nonneg machine.kernel proc.cwd
    have total := ref_eq accounted proc.cwd
    rw [active, inDirectory, one_self] at directories
    show 0 < (machine.kernel.icache proc.cwd).ref
    omega

theorem settle_sum (weight : Option Proc → Int) (outside : weight none = 0) {proc : Proc}
    (active : machine.procs pid = some proc) (enabled : machine.Enabled call) {outcome : Outcome}
    (childless : (∀ child, call ≠ .fork (some child)) → outcome.child = none) :
    ∑ other, weight (machine.settle pid call outcome other) = ∑ other, weight (machine.procs other) +
        (weight outcome.caller + weight outcome.child - weight (some proc)) := by
  have single : ∑ other, weight (Function.update machine.procs pid outcome.caller other) =
      ∑ other, weight (machine.procs other) + (weight outcome.caller - weight (some proc)) := by
    rw [sum_update, active]
  by_cases forks : ∃ child, call = .fork (some child)
  · obtain ⟨child, rfl⟩ := forks
    have unused : machine.procs child = none := enabled
    have apart : child ≠ pid := by
      rintro rfl
      rw [active] at unused
      cases unused
    have both := sum_update weight (Function.update machine.procs pid outcome.caller) child outcome.child
    rw [Function.update_of_ne apart, unused] at both
    exact both.trans (by omega)
  · have alone : outcome.child = none := childless fun child same => forks ⟨child, same⟩
    have same : machine.settle pid call outcome = Function.update machine.procs pid outcome.caller := by
      cases call with
      | fork child =>
        cases child with
        | none => rfl
        | some child => exact absurd ⟨child, rfl⟩ forks
      | _ => rfl
    rw [same, single, alone, outside, add_zero]

theorem perform_childless (first : Bool) (proc : Proc) (single : ∀ child, call ≠ .fork (some child)) (state : State) :
    Wp (fun _ : Memo => True) (perform first proc call) state
      (fun outcome _ => outcome.child = none) (fun _ _ => True) := by
  have ends : ∀ {α : Type} (program : FsM α) (answer : α → Outcome), (∀ value, (answer value).child = none) → ∀ current,
      Wp (fun _ : Memo => True) (program >>= fun value => pure (answer value)) current
        (fun outcome _ => outcome.child = none) (fun _ _ => True) := fun _ _ none _ =>
    Wp.seq (Wp.anyhow (fun _ _ => trivial)) fun value _ _ => Wp.pure (none value)
  refine Wp.set ?_
  cases call with
  | fork child =>
    cases child with
    | none => exact Wp.pure rfl
    | some child => exact absurd rfl (single child)
  | chdir path =>
    refine Wp.seq (Wp.anyhow fun _ _ => trivial) fun _ next _ => ?_
    exact ends visible _ (fun _ => rfl) next
  | _ => exact ends _ _ (fun _ => rfl) _

theorem page_free (enabled : machine.Enabled call) (fetched : Bool) (p : Nat)
    (made : call = .pipe fetched (some p)) : machine.kernel.pipes p = none := by
  subst made
  exact enabled

theorem accounted_step (accounted : Accounted machine)
    (careful : ∀ proc, machine.procs pid = some proc → Careful machine.kernel proc call)
    (step : machine.Step pid call after) : Accounted after := by
  obtain ⟨proc, memo, outcome, next, active, enabled, allowed, ran, rfl⟩ := step
  obtain ⟨Hidden, hidden, correct⟩ := perform_wp (decide (pid = initproc)) call
    (accounted.entered active) accounted.closed (careful proc active) (page_free enabled) allowed
  have served : Accounts machine.kernel proc outcome next.1 := (correct.returned hidden ran).1
  refine ⟨served.idle, served.closed, fun slot => ?_⟩
  rw [settle_sum (inDirectory slot) rfl active enabled fun single =>
    ((perform_childless _ proc single machine.kernel).returned trivial ran).1]
  rw [served.balance, accounted.balance]

theorem accounted_boot (drivers : Drivers) (disk : Blocks) : Accounted (Machine.boot drivers disk) where
  idle := rfl
  closed := fun _ _ => rfl
  balance := fun slot => by
    have unopened : ∑ f, ((Machine.boot drivers disk).kernel.ftable f).on slot = 0 :=
      Finset.sum_eq_zero fun f _ => rfl
    have alone := sum_update (inDirectory slot) (fun _ : Fin NPROC => none) initproc
      (some { cwd := 0, ofile := fun _ => none })
    refine Eq.trans ?_ alone.symm
    unfold State.balance
    rw [unopened]
    by_cases first : slot = 0
    · subst first
      simp [Machine.boot, inDirectory]
    · simp [Machine.boot, inDirectory, Function.update_of_ne first, one_of_ne first]

/-- A call that returns, made with care. -/
def CarefulStep (machine after : Machine) : Prop :=
  ∃ pid call, (∀ proc, machine.procs pid = some proc → Careful machine.kernel proc call) ∧
    machine.Step pid call after

theorem accounted_run (accounted : Accounted machine)
    (run : Relation.ReflTransGen CarefulStep machine after) : Accounted after := by
  induction run with
  | refl => exact accounted
  | tail _ step ih =>
    obtain ⟨pid, call, careful, returned⟩ := step
    exact accounted_step ih careful returned

end Accounted

/-- When calls are made with care, no transaction is active between calls and no
call writes outside a transaction. -/
theorem careful_runs_write_in_transactions {drivers : Drivers} {disk : Blocks} {machine : Machine}
    (run : Relation.ReflTransGen CarefulStep (.boot drivers disk) machine)
    (pid : Fin NPROC) (call : Call)
    (careful : ∀ proc, machine.procs pid = some proc → Careful machine.kernel proc call) :
    machine.kernel.log.busy = false ∧ ¬ machine.Fails pid call outsideTrans := by
  have accounted := accounted_run (accounted_boot drivers disk) run
  refine ⟨accounted.idle, ?_⟩
  rintro ⟨proc, memo, next, active, enabled, allowed, ran⟩
  obtain ⟨Hidden, hidden, correct⟩ := perform_wp (decide (pid = initproc)) call
    (accounted.entered active) accounted.closed (careful proc active) (page_free enabled) allowed
  exact correct.stopped hidden ran rfl

private theorem bareDisk_offers {sector : Nat} {block : Block}
    (offered : (Machine.boot {} Mkfs.bareDisk).kernel.Offers sector block) : block = Mkfs.bareDisk sector :=
  offered.elim id id

private theorem bareDisk_whole : Whole (Machine.boot {} Mkfs.bareDisk).kernel.Offers
    ({ type := T_DIR, nlink := 1, size := 512 : Dinode }.setAddr 0 31) := by
  have first : ∀ {bn sector : Nat}, 512 * bn < 512 → Designates (Machine.boot {} Mkfs.bareDisk).kernel.Offers
        ({ type := T_DIR, nlink := 1, size := 512 : Dinode }.setAddr 0 31) bn sector →
      sector = 31 := by
    intro bn sector inside designated
    cases designated with
    | direct bounded =>
      obtain rfl : bn = 0 := by omega
      rfl
    | @entry table index _ _ =>
      have beyond : 512 * (12 + index) < 512 := inside
      omega
  refine ⟨?_, ?_, ?_⟩
  · intro bn sector inside designated
    rw [first inside designated]
    decide
  · intro large
    exact absurd large (by decide)
  · intro _ bn sector block inside designated offered
    rw [bareDisk_offers offered, first inside designated]
    decide +kernel

private theorem browsable_boot : Browsable (Machine.boot {} Mkfs.bareDisk).kernel := by
  have unread : ∀ slot, ((Machine.boot {} Mkfs.bareDisk).kernel.icache slot).valid = false := by
    decide
  have root : ((Machine.boot {} Mkfs.bareDisk).kernel.icache 0).inum = 1 := rfl
  refine ⟨fun slot _ valid => ?_, fun inum bounded block offered allocated => ?_,
    fun inum bounded apart block offered allocated => ?_, by decide⟩
  · rw [unread slot] at valid
    cases valid
  · rw [bareDisk_offers offered] at allocated ⊢
    obtain rfl : inum = 1 := Mkfs.bareDisk_types ⟨inum, bounded⟩ allocated
    change Whole _ (dinodeOf Mkfs.bareDisk 1)
    rw [Mkfs.bareDisk_root]
    exact bareDisk_whole
  · rw [bareDisk_offers offered] at allocated
    obtain rfl : inum = 1 := Mkfs.bareDisk_types ⟨inum, bounded⟩ allocated
    exact absurd root (apart 0 (by decide))

theorem careful_chdir_of_boot : (Machine.boot {} Mkfs.bareDisk).kernel.log.busy = false ∧
      ¬ (Machine.boot {} Mkfs.bareDisk).Fails initproc (.chdir [slash]) outsideTrans := by
  refine careful_runs_write_in_transactions .refl initproc (.chdir [slash]) ?_
  intro proc active
  cases active
  refine ⟨browsable_boot, .inr ?_⟩
  intro block offered
  rw [bareDisk_offers offered]
  decide +kernel

/-- A process removes the directory it is in and leaves it. -/
theorem leaving_removed_directory : ∃ image machine, Mkfs.mkfs [] = some image ∧
    (Machine.boot {} image.disk).Reaches machine ∧
    machine.Fails initproc (.chdir [slash]) outsideTrans := by
  obtain ⟨image, made, disk⟩ := Mkfs.mkfs_nil
  have fails : ((Machine.boot {} Mkfs.bareDisk).run [(initproc, .mkdir (some [97])),
      (initproc, .chdir [97]), (initproc, .unlink [slash, 97])]).bind
        (·.failure initproc (.chdir [slash])) = some outsideTrans := by decide +kernel
  obtain ⟨machine, ran, stopped⟩ := Option.bind_eq_some_iff.mp fails
  refine ⟨image, machine, made, ?_, Machine.fails_of_failure stopped⟩
  rw [disk]
  exact Machine.reaches_of_run ran

end Xv6Dedup
