import Xv6Dedup.Kernel.InodesProperties

/-!
# `dedup` against deletion

One call of `dedup` and the `unlink` and `close` calls of other processes, which
run in transactions and so one after the other. A step is a section under
`icache.lock` or the use of one buffer of the inode area; the directory and the
blocks of the files are left out. `dedup` finds its inodes by reading the inode
area, where one that `iput` is about to free still has its type.
-/

set_option autoImplicit false

namespace Xv6Dedup.Deletion

/-! ## The steps -/

/-- An inode: its type and links on disk, its entry in the inode cache (unless
`ref` is zero), and how many open files refer to it. -/
structure Entry where
  type : Nat := 0
  links : Nat := 0
  ref : Nat := 0
  valid : Bool := false
  nlink : Nat := 0
  busy : Bool := false
  opens : Nat := 0
  deriving DecidableEq, Repr

def Entry.iget (entry : Entry) : Entry :=
  if 0 < entry.ref then { entry with ref := entry.ref + 1 }
  else { entry with ref := 1, valid := false, busy := false }

/-- What `ilock` reads when the cached inode is not valid. -/
def Entry.load (entry : Entry) : Entry :=
  if entry.valid then entry else { entry with valid := true, nlink := entry.links }

/-- `ilock` panics when it reads a free inode. -/
def Entry.noType (entry : Entry) : Prop := entry.valid = false ∧ entry.type = 0

instance (entry : Entry) : Decidable entry.noType := inferInstanceAs (Decidable (_ ∧ _))

/-- The condition under which `iput` frees the inode. -/
def Entry.orphan (entry : Entry) : Prop := entry.ref = 1 ∧ entry.valid = true ∧ entry.nlink = 0

instance (entry : Entry) : Decidable entry.orphan := inferInstanceAs (Decidable (_ ∧ _ ∧ _))

/-- Where `dedup` is with one inode. -/
inductive Stage where
  /-- Before `bread(1, IBLOCK(inum))` of the search. -/
  | look (inum : Nat)
  /-- `iget` is done. -/
  | held (inum : Nat)
  /-- `ilock` has set `I_BUSY`. -/
  | busy (inum : Nat)
  | locked (inum : Nat)
  /-- `iunlock` is done, before `iput`. -/
  | unlocked (inum : Nat)
  deriving DecidableEq, Repr

/-- Why `dedup` stops the kernel. -/
inductive Fault where
  /-- "ilock: no type" -/
  | noType
  /-- "iput busy" -/
  | iputBusy
  /-- `iput` truncates the inode, and `dedup` is not in a transaction: "write outside of trans" -/
  | outsideTrans
  deriving DecidableEq, Repr

/-- Where a call of `dedup` is; in its inner loop it has `ip1` locked. -/
inductive DedupPhase where
  | on (ip1 : Option Nat) (stage : Stage)
  | done
  | fault (fault : Fault)
  deriving DecidableEq, Repr

inductive CallPhase where
  | idle
  | held (inum : Nat)
  | busy (inum : Nat)
  | locked (inum : Nat)
  /-- `unlink` has lowered the number of links and called `iupdate`. -/
  | updated (inum : Nat)
  /-- Before `iput`. -/
  | dropping (inum : Nat)
  /-- `iput` has decided to free the inode and truncates it. -/
  | freeing (inum : Nat)
  /-- `iput` has written type 0. -/
  | freed (inum : Nat)
  | panic (inum : Nat) (message : String)
  deriving DecidableEq, Repr

structure Inodes where
  entry : Nat → Entry
  dedup : DedupPhase := .on none (.look 1)
  call : CallPhase := .idle

def Inodes.set (state : Inodes) (inum : Nat) (entry : Entry) : Inodes :=
  { state with entry := Function.update state.entry inum entry }

def Inodes.goto (state : Inodes) (dedup : DedupPhase) : Inodes := { state with dedup := dedup }

def Inodes.callTo (state : Inodes) (call : CallPhase) : Inodes := { state with call := call }

/-- Where `dedup` goes on after `iunlockput`. In the inner loop it leaves the
search when a duplicate was found. -/
def afterPut (found : Bool) (inum : Nat) : Option Nat → DedupPhase
  | none => .on none (.look (inum + 1))
  | some ip1 => if found then .on none (.locked ip1) else .on (some ip1) (.look (inum - 1))

/-- The next step of `dedup`; `none` when it has to wait or is over. `choice`
stands for the data: whether a block of `ip1` has to be searched for in other
files, whether a duplicate is found. -/
def Inodes.dedupStep (state : Inodes) (choice : Bool) : Option Inodes :=
  match state.dedup with
  | .on none (.look inum) =>
    if inum < NINODES then
      if (state.entry inum).type = T_FILE then
        some ((state.set inum (state.entry inum).iget).goto (.on none (.held inum)))
      else some (state.goto (.on none (.look (inum + 1))))
    else some (state.goto .done)
  | .on (some ip1) (.look inum) =>
    if ip1 < inum then
      if (state.entry inum).type = T_FILE then
        some ((state.set inum (state.entry inum).iget).goto (.on (some ip1) (.held inum)))
      else some (state.goto (.on (some ip1) (.look (inum - 1))))
    else some (state.goto (.on none (.locked ip1)))
  | .on ip1 (.held inum) =>
    if (state.entry inum).busy then none
    else some ((state.set inum { state.entry inum with busy := true }).goto (.on ip1 (.busy inum)))
  | .on ip1 (.busy inum) =>
    if (state.entry inum).noType then some (state.goto (.fault .noType))
    else some ((state.set inum (state.entry inum).load).goto (.on ip1 (.locked inum)))
  | .on ip1 (.locked inum) =>
    if ip1 = none ∧ choice = true then
      some (state.goto (.on (some inum) (.look (NINODES - 1))))
    else
      some ((state.set inum { state.entry inum with busy := false }).goto (.on ip1 (.unlocked inum)))
  | .on ip1 (.unlocked inum) =>
    if (state.entry inum).orphan then
      some (state.goto (.fault (if (state.entry inum).busy then .iputBusy else .outsideTrans)))
    else
      some ((state.set inum { state.entry inum with ref := (state.entry inum).ref - 1 }).goto
        (afterPut choice inum ip1))
  | .done | .fault _ => none

inductive Act where
  | dedup (choice : Bool)
  /-- `begin_trans`, and `dirlookup` finds an entry for the inode. -/
  | unlink (inum : Nat)
  /-- The last `close` of a file: `begin_trans`. -/
  | close (inum : Nat)
  /-- `unlink` finds a directory that is not empty. -/
  | refuse
  /-- The next step of the transaction. -/
  | proceed
  deriving DecidableEq, Repr

def Inodes.proceed (state : Inodes) : Option Inodes :=
  match state.call with
  | .held inum =>
    if (state.entry inum).busy then none
    else some ((state.set inum { state.entry inum with busy := true }).callTo (.busy inum))
  | .busy inum =>
    if (state.entry inum).noType then some (state.callTo (.panic inum "ilock: no type"))
    else some ((state.set inum (state.entry inum).load).callTo (.locked inum))
  | .locked inum =>
    if (state.entry inum).nlink < 1 then some (state.callTo (.panic inum "unlink: nlink < 1"))
    else
      some ((state.set inum { state.entry inum with
        nlink := (state.entry inum).nlink - 1
        links := (state.entry inum).nlink - 1 }).callTo (.updated inum))
  | .updated inum =>
    some ((state.set inum { state.entry inum with busy := false }).callTo (.dropping inum))
  | .dropping inum =>
    if (state.entry inum).orphan then
      if (state.entry inum).busy then some (state.callTo (.panic inum "iput busy"))
      else some ((state.set inum { state.entry inum with busy := true }).callTo (.freeing inum))
    else
      some ((state.set inum { state.entry inum with ref := (state.entry inum).ref - 1 }).callTo .idle)
  | .freeing inum => some ((state.set inum { state.entry inum with type := 0 }).callTo (.freed inum))
  | .freed inum =>
    some ((state.set inum { state.entry inum with
      valid := false
      busy := false
      ref := (state.entry inum).ref - 1 }).callTo .idle)
  | .idle | .panic _ _ => none

def Inodes.act (state : Inodes) : Act → Option Inodes
  | .dedup choice => state.dedupStep choice
  | .unlink inum =>
    if state.call = .idle ∧ 0 < (state.entry inum).links then
      some ((state.set inum (state.entry inum).iget).callTo (.held inum))
    else none
  | .close inum =>
    if state.call = .idle ∧ 0 < (state.entry inum).opens then
      some ((state.set inum { state.entry inum with opens := (state.entry inum).opens - 1 }).callTo
        (.dropping inum))
    else none
  | .refuse =>
    match state.call with
    | .locked inum => some (state.callTo (.updated inum))
    | _ => none
  | .proceed => state.proceed

def Step (state next : Inodes) : Prop := ∃ act, state.act act = some next

/-! ## Who refers to an inode -/

def Stage.refs : Stage → Nat → Nat
  | .look _, _ => 0
  | .held inum, other | .busy inum, other | .locked inum, other | .unlocked inum, other =>
    if other = inum then 1 else 0

def Stage.Locks : Stage → Nat → Prop
  | .busy inum, other | .locked inum, other => other = inum
  | _, _ => False

def DedupPhase.refs : DedupPhase → Nat → Nat
  | .on ip1 stage, other => (if ip1 = some other then 1 else 0) + stage.refs other
  | _, _ => 0

def DedupPhase.Locks : DedupPhase → Nat → Prop
  | .on ip1 stage, other => ip1 = some other ∨ stage.Locks other
  | _, _ => False

def CallPhase.refs : CallPhase → Nat → Nat
  | .held inum, other | .busy inum, other | .locked inum, other | .updated inum, other
  | .dropping inum, other | .freeing inum, other | .freed inum, other | .panic inum _, other =>
    if other = inum then 1 else 0
  | .idle, _ => 0

def CallPhase.Locks : CallPhase → Nat → Prop
  | .busy inum, other | .locked inum, other | .updated inum, other | .freeing inum, other
  | .freed inum, other | .panic inum _, other => other = inum
  | _, _ => False

def CallPhase.Frees : CallPhase → Nat → Prop
  | .freeing inum, other | .freed inum, other => other = inum
  | _, _ => False

/-- The inode that `dedup` takes a reference to when it is a file. -/
def DedupPhase.looksAt : DedupPhase → Option Nat
  | .on none (.look inum) => if inum < NINODES then some inum else none
  | .on (some ip1) (.look inum) => if ip1 < inum then some inum else none
  | _ => none

/-- `dedup` takes references to files only that have a link or another holder,
and that are not being freed; the other processes drop a reference to an inode
without links only if that does not leave `dedup` as its only holder. -/
def Careful (state : Inodes) : Act → Prop
  | .dedup _ =>
    ∀ inum, state.dedup.looksAt = some inum → (state.entry inum).type = T_FILE →
      (0 < (state.entry inum).links ∨ 0 < (state.entry inum).ref) ∧ ¬ state.call.Frees inum
  | .proceed =>
    ∀ inum, state.call = .dropping inum → (state.entry inum).links = 0 →
      0 < state.dedup.refs inum → (state.entry inum).ref ≠ state.dedup.refs inum + 1
  | _ => True

def CarefulStep (state next : Inodes) : Prop := ∃ act, Careful state act ∧ state.act act = some next

/-- Nobody has begun: the references are those of the open files. -/
structure Settled (state : Inodes) : Prop where
  dedup : state.dedup = .on none (.look 1)
  call : state.call = .idle
  refs : ∀ inum, (state.entry inum).ref = (state.entry inum).opens
  links : ∀ inum, (state.entry inum).valid = true → (state.entry inum).nlink = (state.entry inum).links
  unlocked : ∀ inum, (state.entry inum).busy = false

/-! ## The invariant -/

structure Fits (entry : Entry) (dedup : DedupPhase) (call : CallPhase) (inum : Nat) : Prop where
  refs : entry.ref = entry.opens + dedup.refs inum + call.refs inum
  links : entry.valid = true → entry.nlink = entry.links
  locks : entry.busy = true → dedup.Locks inum ∨ call.Locks inum ∨ entry.ref = 0
  kept : 0 < dedup.refs inum → entry.type ≠ 0 ∧ ¬ call.Frees inum ∧
    (0 < entry.links ∨ 0 < entry.opens + call.refs inum)

def Sound (state : Inodes) : Prop :=
  (∀ inum, Fits (state.entry inum) state.dedup state.call inum) ∧ ∀ fault, state.dedup ≠ .fault fault

theorem Settled.sound {state : Inodes} (settled : Settled state) : Sound state := by
  refine ⟨fun inum => ?_, fun fault => ?_⟩
  · rw [settled.dedup, settled.call]
    refine ⟨settled.refs inum, settled.links inum, fun busy => ?_, nofun⟩
    rw [settled.unlocked inum] at busy
    cases busy
  · rw [settled.dedup]
    nofun

variable {inum : Nat} {call : CallPhase} {entry : Entry}

theorem CallPhase.refs_of_locks (locks : call.Locks inum) : call.refs inum = 1 := by
  cases call with
  | idle | held | dropping => cases locks
  | busy | locked | updated | freeing | freed | panic => exact if_pos locks

theorem CallPhase.locks_of_frees (frees : call.Frees inum) : call.Locks inum := by
  cases call with
  | freeing | freed => exact frees
  | idle | held | busy | locked | updated | dropping | panic => cases frees

/-- The new phases refer to the inode as the old ones do, keep its lock and do not free it. -/
structure Alike (dedup dedup' : DedupPhase) (call call' : CallPhase) (inum : Nat) : Prop where
  refs : dedup'.refs inum = dedup.refs inum := by rfl
  locks : dedup.Locks inum → dedup'.Locks inum := by exact id
  callRefs : call'.refs inum = call.refs inum := by rfl
  callLocks : call.Locks inum → call'.Locks inum := by exact id
  frees : call'.Frees inum → call.Frees inum := by exact id

variable {dedup : DedupPhase} {call' : CallPhase}

theorem Fits.phases {dedup' : DedupPhase} (fits : Fits entry dedup call inum)
    (alike : Alike dedup dedup' call call' inum) : Fits entry dedup' call' inum := by
  refine ⟨?_, fits.links, fun busy => ?_, fun held => ?_⟩
  · rw [alike.refs, alike.callRefs]
    exact fits.refs
  · rcases fits.locks busy with byDedup | byCall | unused
    · exact .inl (alike.locks byDedup)
    · exact .inr (.inl (alike.callLocks byCall))
    · exact .inr (.inr unused)
  · rw [alike.refs] at held
    obtain ⟨typed, notFreed, kept⟩ := fits.kept held
    rw [alike.callRefs]
    exact ⟨typed, fun now => notFreed (alike.frees now), kept⟩

section

variable {state : Inodes} (sound : Sound state)
include sound

theorem sound_set (fits : Fits entry dedup call inum)
    (others : ∀ other ≠ inum, Alike state.dedup dedup state.call call other)
    (noFault : ∀ fault, dedup ≠ .fault fault) : Sound (((state.set inum entry).goto dedup).callTo call) := by
  refine ⟨fun other => ?_, noFault⟩
  by_cases same : other = inum
  · subst same
    simp only [Inodes.set, Inodes.goto, Inodes.callTo, Function.update_self]
    exact fits
  · simp only [Inodes.set, Inodes.goto, Inodes.callTo, Function.update_of_ne same]
    exact (sound.1 other).phases (others other same)

theorem sound_dedup {dedup' : DedupPhase} (phase : state.dedup = dedup)
    (fits : Fits (state.entry inum) dedup state.call inum → Fits entry dedup' state.call inum)
    (others : ∀ other ≠ inum, dedup'.refs other = dedup.refs other ∧ (dedup.Locks other →
      dedup'.Locks other)) (noFault : ∀ fault, dedup' ≠ .fault fault) : Sound ((state.set inum entry).goto dedup') := by
  subst phase
  exact sound_set sound (fits (sound.1 inum))
    (fun other different => { refs := (others other different).1, locks := (others other different).2 }) noFault

/-- A transaction refers to one inode only. -/
theorem sound_call (phase : state.call = call) (refs : ∀ other ≠ inum, call.refs other = 0)
    (refs' : ∀ other ≠ inum, call'.refs other = 0)
    (fits : Fits (state.entry inum) state.dedup call inum → Fits entry state.dedup call' inum) :
    Sound ((state.set inum entry).callTo call') := by
  subst phase
  refine sound_set sound (fits (sound.1 inum)) (fun other different =>
    { callRefs := (refs' other different).trans (refs other different).symm
      callLocks := fun locks => ?_
      frees := fun frees => ?_ }) sound.2
  · have one := CallPhase.refs_of_locks locks
    rw [refs other different] at one
    cases one
  · have one := CallPhase.refs_of_locks (CallPhase.locks_of_frees frees)
    rw [refs' other different] at one
    cases one

theorem sound_goto {dedup' : DedupPhase} (phase : state.dedup = dedup)
    (refs : ∀ inum, dedup'.refs inum = dedup.refs inum) (locks : ∀ inum, dedup.Locks inum → dedup'.Locks inum)
    (noFault : ∀ fault, dedup' ≠ .fault fault) : Sound (state.goto dedup') := by
  subst phase
  exact ⟨fun inum => (sound.1 inum).phases { refs := refs inum, locks := locks inum }, noFault⟩

end

theorem sound_callTo {state : Inodes} (sound : Sound state) (phase : state.call = call)
    (refs : ∀ inum, call'.refs inum = call.refs inum) (locks : ∀ inum, call.Locks inum → call'.Locks inum)
    (frees : ∀ inum, call'.Frees inum → call.Frees inum) : Sound (state.callTo call') := by
  subst phase
  exact ⟨fun inum => (sound.1 inum).phases
    { callRefs := refs inum, callLocks := locks inum, frees := frees inum }, sound.2⟩

theorem Fits.iget_ref (fits : Fits entry dedup call inum) :
    entry.iget.ref = entry.ref + 1 ∧ entry.iget.type = entry.type ∧
      entry.iget.links = entry.links ∧ entry.iget.opens = entry.opens ∧
      (entry.iget.valid = true → entry.iget.nlink = entry.iget.links) ∧
      (entry.iget.busy = true → dedup.Locks inum ∨ call.Locks inum) := by
  unfold Entry.iget
  by_cases cached : 0 < entry.ref
  · rw [if_pos cached]
    refine ⟨rfl, rfl, rfl, rfl, fits.links, fun busy => ?_⟩
    rcases fits.locks busy with byDedup | byCall | unused
    · exact .inl byDedup
    · exact .inr byCall
    · exact absurd unused (by omega)
  · rw [if_neg cached]
    refine ⟨?_, rfl, rfl, rfl, nofun, nofun⟩
    change 1 = entry.ref + 1
    omega

theorem Fits.load (fits : Fits entry dedup call inum) : Fits entry.load dedup call inum := by
  unfold Entry.load
  split
  · exact fits
  · exact ⟨fits.refs, fun _ => rfl, fits.locks, fits.kept⟩

section Dedup

variable {state next : Inodes} {ip1 : Option Nat} {inum : Nat}

theorem inner_look (ip1 inum other : Nat) : (DedupPhase.on (some ip1) (.look inum)).refs other =
        (DedupPhase.on none (.locked ip1)).refs other ∧
      ((DedupPhase.on (some ip1) (.look inum)).Locks other ↔ (DedupPhase.on none (.locked ip1)).Locks other) := by
  simp [DedupPhase.refs, DedupPhase.Locks, Stage.refs, Stage.Locks, eq_comm]

theorem sound_take (sound : Sound state) (phase : state.dedup = .on ip1 (.look inum))
    (file : (state.entry inum).type = T_FILE)
    (wanted : (0 < (state.entry inum).links ∨ 0 < (state.entry inum).ref) ∧ ¬ state.call.Frees inum) :
    Sound ((state.set inum (state.entry inum).iget).goto (.on ip1 (.held inum))) := by
  refine sound_dedup sound phase (fun before => ?_) (fun other different => ⟨?_, id⟩) nofun
  · obtain ⟨ref, type, links, opens, valid, busy⟩ := before.iget_ref
    have refs := before.refs
    have kept := before.kept
    simp only [DedupPhase.refs, Stage.refs, Nat.add_zero] at refs kept
    refine ⟨?_, valid, fun isBusy => ?_, fun _ => ⟨?_, wanted.2, ?_⟩⟩
    · rw [DedupPhase.refs, Stage.refs, if_pos rfl]
      omega
    · exact (busy isBusy).imp_right .inl
    · rw [type, file]
      decide
    · rw [links, opens]
      rcases wanted.1 with linked | referred
      · exact .inl linked
      · -- the references are those of the files, of the transaction, or `dedup`'s own
        by_cases own : 0 < if ip1 = some inum then 1 else 0
        · exact (kept own).2.2
        · right
          omega
  · rw [DedupPhase.refs, DedupPhase.refs, Stage.refs, Stage.refs, if_neg different]

theorem Sound.not_orphan (sound : Sound state) (held : 0 < state.dedup.refs inum) : ¬ (state.entry inum).orphan := by
  rintro ⟨single, valid, unlinked⟩
  have before := sound.1 inum
  obtain ⟨_, _, kept⟩ := before.kept held
  have refs := before.refs
  rw [before.links valid] at unlinked
  omega

theorem afterPut_refs (found : Bool) (ip1 : Option Nat) (inum other : Nat) :
    (afterPut found inum ip1).refs other + (if other = inum then 1 else 0) =
      (DedupPhase.on ip1 (.unlocked inum)).refs other := by
  cases ip1 with
  | none => simp [afterPut, DedupPhase.refs, Stage.refs]
  | some ip1 => cases found <;> simp [afterPut, DedupPhase.refs, Stage.refs, eq_comm]

theorem afterPut_locks (found : Bool) (ip1 : Option Nat) {other : Nat}
    (locks : (DedupPhase.on ip1 (.unlocked inum)).Locks other) : (afterPut found inum ip1).Locks other := by
  rcases locks with isOuter | none
  · subst isOuter
    cases found with
    | true => exact .inr rfl
    | false => exact .inl rfl
  · cases none

theorem sound_put (sound : Sound state) (phase : state.dedup = .on ip1 (.unlocked inum)) (found : Bool) :
    Sound ((state.set inum { state.entry inum with ref := (state.entry inum).ref - 1 }).goto
      (afterPut found inum ip1)) := by
  have left := afterPut_refs found ip1 inum
  have gone := left inum
  rw [if_pos rfl] at gone
  refine sound_dedup sound phase (fun before => ⟨?_, before.links, fun busy => ?_, fun held => ?_⟩)
    (fun other different => ⟨?_, afterPut_locks found ip1⟩) fun fault => ?_
  · have refs := before.refs
    change (state.entry inum).ref - 1 = (state.entry inum).opens + _ + _
    omega
  · rcases before.locks busy with byDedup | byCall | unused
    · exact .inl (afterPut_locks found ip1 byDedup)
    · exact .inr (.inl byCall)
    · right
      right
      change (state.entry inum).ref - 1 = 0
      omega
  · exact before.kept (by omega)
  · have same := left other
    rw [if_neg different] at same
    exact same
  · cases ip1 with
    | none => nofun
    | some ip1 => cases found <;> nofun

theorem sound_dedupStep {choice : Bool} (sound : Sound state)
    (careful : Careful state (.dedup choice)) (acts : state.dedupStep choice = some next) : Sound next := by
  have holds {ip1 : Option Nat} {stage : Stage} {inum : Nat} (phase : state.dedup = .on ip1 stage)
      (own : stage.refs inum = 1) : 0 < state.dedup.refs inum := by
    rw [phase, DedupPhase.refs]
    omega
  revert acts
  fun_cases Inodes.dedupStep state choice <;> rintro ⟨⟩
  case case1 inum phase inside file =>
    exact sound_take sound phase file (careful inum (by rw [phase]; exact if_pos inside) file)
  case case2 inum phase _ _ => exact sound_goto sound phase (fun _ => rfl) (fun _ => id) nofun
  case case3 inum phase _ =>
    refine sound_goto sound phase (fun _ => rfl) (fun _ => ?_) nofun
    rintro (none | none)
    · cases none
    · cases none
  case case4 ip1 inum phase inside file =>
    exact sound_take sound phase file (careful inum (by rw [phase]; exact if_pos inside) file)
  case case5 ip1 inum phase _ _ => exact sound_goto sound phase (fun _ => rfl) (fun _ => id) nofun
  case case6 ip1 inum phase _ =>
    exact sound_goto sound phase (fun _ => (inner_look _ _ _).1.symm) (fun _ => (inner_look _ _ _).2.mp) nofun
  case case8 ip1 inum phase _ =>
    exact sound_dedup sound phase (fun before => ⟨before.refs, before.links, fun _ => .inl (.inr rfl), before.kept⟩)
      (fun _ _ => ⟨rfl, fun held => held.imp_right False.elim⟩) nofun
  case case9 ip1 inum phase free =>
    exact absurd free.2 ((sound.1 inum).kept (holds phase (if_pos rfl))).1
  case case10 ip1 inum phase _ =>
    refine sound_dedup sound phase (fun before => ?_) (fun _ _ => ⟨rfl, id⟩) nofun
    have loaded := before.load
    exact { loaded with }
  case case11 ip1 inum phase enters =>
    obtain ⟨rfl, _⟩ := enters
    exact sound_goto sound phase (fun _ => (inner_look _ _ _).1) (fun _ => (inner_look _ _ _).2.mpr) nofun
  case case12 ip1 inum phase _ =>
    exact sound_dedup sound phase (fun before => ⟨before.refs, before.links, nofun, before.kept⟩)
      (fun _ different => ⟨rfl, fun held => held.imp_right different⟩) nofun
  case case13 ip1 inum phase orphan =>
    exact absurd orphan (sound.not_orphan (holds phase (if_pos rfl)))
  case case14 ip1 inum phase _ => exact sound_put sound phase choice

end Dedup

section Call

variable {state next : Inodes} {inum : Nat}

theorem sound_proceed (sound : Sound state) (careful : Careful state .proceed)
    (acts : state.proceed = some next) : Sound next := by
  have none {inum other : Nat} (different : other ≠ inum) : (if other = inum then 1 else 0) = 0 :=
    if_neg different
  have own (inum : Nat) : (if inum = inum then 1 else 0) = 1 := if_pos rfl
  revert acts
  fun_cases Inodes.proceed state <;> rintro ⟨⟩
  case case2 inum phase _ =>
    exact sound_call sound phase (fun _ => none) (fun _ => none) fun before =>
      ⟨before.refs, before.links, fun _ => .inr (.inl rfl), before.kept⟩
  case case3 inum phase _ =>
    exact sound_callTo sound phase (fun _ => rfl) (fun _ => id) fun _ => False.elim
  case case4 inum phase _ =>
    exact sound_call sound phase (fun _ => none) (fun _ => none) fun before =>
      before.load.phases {}
  case case5 inum phase _ =>
    exact sound_callTo sound phase (fun _ => rfl) (fun _ => id) fun _ => False.elim
  case case6 inum phase _ =>
    refine sound_call sound phase (fun _ => none) (fun _ => none) fun before =>
      ⟨before.refs, fun _ => rfl, before.locks, fun held => ⟨(before.kept held).1, id, .inr ?_⟩⟩
    rw [CallPhase.refs, own]
    omega
  case case7 inum phase =>
    exact sound_call sound phase (fun _ => none) (fun _ => none) fun before =>
      ⟨before.refs, before.links, nofun, before.kept⟩
  case case8 inum phase _ _ =>
    exact sound_callTo sound phase (fun _ => rfl) (fun _ => False.elim) fun _ => False.elim
  case case9 inum phase orphan _ =>
    refine sound_call sound phase (fun _ => none) (fun _ => none) fun before =>
      ⟨before.refs, before.links, fun _ => .inr (.inl rfl), fun held => ?_⟩
    have refs := before.refs
    have single := orphan.1
    rw [CallPhase.refs, own] at refs
    omega
  case case10 inum phase _ =>
    refine sound_call sound phase (fun _ => none) (fun _ _ => rfl) fun before => ?_
    have refs := before.refs
    rw [CallPhase.refs, own] at refs
    refine ⟨?_, before.links, fun busy => ?_, fun held => ?_⟩
    · change (state.entry inum).ref - 1 = (state.entry inum).opens + _ + 0
      omega
    · rcases before.locks busy with byDedup | byCall | unused
      · exact .inl byDedup
      · cases byCall
      · exact absurd unused (by omega)
    · obtain ⟨typed, _, _⟩ := before.kept held
      refine ⟨typed, id, ?_⟩
      by_cases linked : 0 < (state.entry inum).links
      · exact .inl linked
      · have others := careful inum phase (by omega) held
        right
        change 0 < (state.entry inum).opens + 0
        omega
  case case11 inum phase =>
    exact sound_call sound phase (fun _ => none) (fun _ => none) fun before =>
      ⟨before.refs, before.links, fun _ => .inr (.inl rfl), fun held => absurd rfl (before.kept held).2.1⟩
  case case12 inum phase =>
    refine sound_call sound phase (fun _ => none) (fun _ _ => rfl) fun before =>
      ⟨?_, nofun, nofun, fun held => absurd rfl (before.kept held).2.1⟩
    have refs := before.refs
    rw [CallPhase.refs, own] at refs
    change (state.entry inum).ref - 1 = (state.entry inum).opens + _ + 0
    omega

theorem sound_act {act : Act} (sound : Sound state) (careful : Careful state act)
    (acts : state.act act = some next) : Sound next := by
  have none {inum other : Nat} (different : other ≠ inum) : (if other = inum then 1 else 0) = 0 :=
    if_neg different
  revert acts
  fun_cases Inodes.act state act
  case case1 choice => exact sound_dedupStep sound careful
  case case2 inum idle =>
    rintro ⟨⟩
    obtain ⟨idle, linked⟩ := idle
    refine sound_call sound idle (fun _ _ => rfl) (fun _ => none) fun before => ?_
    obtain ⟨ref, type, links, opens, valid, busy⟩ := before.iget_ref
    refine ⟨?_, valid, fun isBusy => ?_, fun held => ?_⟩
    · rw [ref, opens, CallPhase.refs, if_pos rfl, before.refs]
      rfl
    · exact (busy isBusy).imp_right False.elim
    · obtain ⟨typed, _, _⟩ := before.kept held
      rw [type, links]
      exact ⟨typed, id, .inl linked⟩
  case case4 inum idle =>
    rintro ⟨⟩
    obtain ⟨idle, opened⟩ := idle
    refine sound_call sound idle (fun _ _ => rfl) (fun _ => none) fun before => ?_
    have refs := before.refs
    rw [CallPhase.refs] at refs
    refine ⟨?_, before.links, before.locks, fun held => ⟨(before.kept held).1, id, .inr ?_⟩⟩
    · change (state.entry inum).ref = (state.entry inum).opens - 1 + _ + _
      rw [CallPhase.refs, if_pos rfl]
      omega
    · rw [CallPhase.refs, if_pos rfl]
      omega
  case case6 inum phase =>
    rintro ⟨⟩
    exact sound_callTo sound phase (fun _ => rfl) (fun _ => id) fun _ => False.elim
  case case8 => exact sound_proceed sound careful
  all_goals nofun

theorem sound_run {start : Inodes} (settled : Settled start)
    (run : Relation.ReflTransGen CarefulStep start state) : Sound state := by
  induction run with
  | refl => exact settled.sound
  | tail _ step ih =>
    obtain ⟨act, careful, acts⟩ := step
    exact sound_act ih careful acts

end Call

/-- As long as `dedup` takes only wanted files and nobody leaves it an inode
without links, it neither locks a free inode nor has to free one. -/
theorem dedup_never_faults {start state : Inodes} (settled : Settled start)
    (run : Relation.ReflTransGen CarefulStep start state) (fault : Fault) :
    state.dedup ≠ .fault fault :=
  (sound_run settled run).2 fault

/-! ## Deletions that stop `dedup` -/

def Inodes.run (state : Inodes) : List Act → Option Inodes
  | [] => some state
  | act :: rest => (state.act act).bind fun next => next.run rest

theorem steps_of_acts {state final : Inodes} {acts : List Act}
    (ran : state.run acts = some final) : Relation.ReflTransGen Step state final := by
  induction acts generalizing state with
  | nil =>
    cases ran
    exact .refl
  | cons act rest ih =>
    obtain ⟨next, stepped, later⟩ := Option.bind_eq_some_iff.mp ran
    exact .head ⟨act, stepped⟩ (ih later)

def single (entry : Entry) : Inodes where
  entry inum := if inum = 2 then entry else {}

theorem settled_single (refs : entry.ref = entry.opens)
    (links : entry.valid = true → entry.nlink = entry.links) (unlocked : entry.busy = false) :
    Settled (single entry) := by
  refine ⟨rfl, rfl, fun inum => ?_, fun inum => ?_, fun inum => ?_⟩
  all_goals
    simp only [single]
    split
  · exact refs
  · rfl
  · exact links
  · exact nofun
  · exact unlocked
  · rfl

def linkedFile : Entry := { type := T_FILE, links := 1 }

def unlinkedFile : Entry := { type := T_FILE, ref := 1, valid := true, opens := 1 }

/-- `unlink` removes the last link between `iunlock` and `iput` of `dedup`, which
then frees the inode itself; and `dedup` finds an inode that `close` is about to
free. -/
theorem deletion_stops_dedup :
    (Settled (single linkedFile) ∧ ∃ state, Relation.ReflTransGen Step (single linkedFile) state ∧
        state.dedup = .fault .outsideTrans) ∧
      Settled (single unlinkedFile) ∧ ∃ state, Relation.ReflTransGen Step (single unlinkedFile) state ∧
          state.dedup = .fault .noType := by
  have unlinked : ((single linkedFile).run [.dedup false, .dedup false, .dedup false, .dedup false,
      .dedup false, .unlink 2, .proceed, .proceed, .proceed, .proceed, .proceed,
      .dedup false]).map Inodes.dedup = some (.fault .outsideTrans) := by decide +kernel
  have closed : ((single unlinkedFile).run [.dedup false, .close 2, .proceed, .dedup false, .proceed,
      .proceed, .dedup false, .dedup false]).map Inodes.dedup = some (.fault .noType) := by
    decide +kernel
  obtain ⟨first, ran, orphaned⟩ := Option.map_eq_some_iff.mp unlinked
  obtain ⟨second, ran', untyped⟩ := Option.map_eq_some_iff.mp closed
  exact ⟨⟨settled_single rfl nofun rfl, first, steps_of_acts ran, orphaned⟩,
    settled_single rfl (fun _ => rfl) rfl, second, steps_of_acts ran', untyped⟩

theorem careful_proceed {state : Inodes} (unheld : ∀ inum, state.call = .dropping inum → state.dedup.refs inum = 0) :
    Careful state .proceed := by
  intro inum drops _ held
  rw [unheld inum drops] at held
  cases held

/-- `unlink` removes the file before `dedup` has found it. -/
theorem dedup_never_faults_linkedFile : ∃ state, Relation.ReflTransGen CarefulStep (single linkedFile) state ∧
      (state.entry 2).type = 0 ∧ ∀ fault, state.dedup ≠ .fault fault := by
  have run : ∃ state, Relation.ReflTransGen CarefulStep (single linkedFile) state ∧ (state.entry 2).type = 0 := by
    refine ⟨_, .head ⟨.unlink 2, trivial, rfl⟩ <|
      .head ⟨.proceed, careful_proceed (fun _ _ => rfl), rfl⟩ <|
      .head ⟨.proceed, careful_proceed (fun _ _ => rfl), rfl⟩ <|
      .head ⟨.proceed, careful_proceed (fun _ _ => rfl), rfl⟩ <|
      .head ⟨.proceed, careful_proceed (fun _ _ => rfl), rfl⟩ <|
      .head ⟨.proceed, careful_proceed (fun _ _ => rfl), rfl⟩ <|
      .head ⟨.proceed, careful_proceed (fun _ _ => rfl), rfl⟩ .refl, rfl⟩
  have settled : Settled (single linkedFile) := settled_single rfl nofun rfl
  obtain ⟨state, steps, freed⟩ := run
  exact ⟨state, steps, freed, dedup_never_faults settled steps⟩

/-! ## The functions of the kernel -/

/-- An inode in a state of the kernel, with its entry in the inode cache. -/
def entryOf (state : State) (slot : Slot) (opens : Nat) : Entry where
  type := (dinodeOf state.data (state.icache slot).inum).type
  links := (dinodeOf state.data (state.icache slot).inum).nlink
  ref := (state.icache slot).ref.toNat
  valid := (state.icache slot).valid
  nlink := (state.icache slot).nlink
  busy := (state.icache slot).busy
  opens := opens

section Kernel

variable {free : Freedom} {state : State} {slot : Slot} {opens : Nat}

theorem ilock_entry (steady : Steady free state) (used : 0 < (state.icache slot).ref)
    (unlocked : (state.icache slot).busy = false) (idle : (state.buf (IBLOCK (state.icache slot).inum)).busy = false) :
    FsWp free (ilock slot) state (fun _ after => ¬ (entryOf state slot opens).noType ∧
        entryOf after slot opens = { (entryOf state slot opens).load with busy := true })
      (fun reason _ => reason = .panic "ilock: no type" ∧ (entryOf state slot opens).noType) := by
  refine Wp.peek ?_
  rw [if_neg (by omega), unlocked]
  refine Wp.set (Wp.ite (fun loaded => ?_) fun unloaded => ?_)
  · refine Wp.pure ⟨fun none => ?_, ?_⟩
    · exact absurd (loaded.symm.trans none.1) (by decide)
    · have kept : (entryOf state slot opens).load = entryOf state slot opens := if_pos loaded
      rw [kept]
      simp only [entryOf, State.setInode, Function.update_self]
      rfl
  · refine read_wp (by exact steady) (by exact idle) ?_
    refine Wp.bind (brelse_hold_wp idle (Wp.set ?_))
    have invalid : (state.icache slot).valid = false := by simpa using unloaded
    refine Wp.ite (fun untyped => Wp.throw ⟨rfl, invalid, untyped⟩) fun typed => Wp.pure ⟨?_, ?_⟩
    · exact fun none => typed none.2
    · have read : (entryOf state slot opens).load = { entryOf state slot opens with
          valid := true, nlink := (entryOf state slot opens).links } := if_neg unloaded
      rw [read]
      simp only [entryOf, State.setInode, Function.update_self]
      rfl

theorem iput_entry (outside : state.log.busy = false) (used : 0 < (state.icache slot).ref) :
    FsWp free (iput slot) state (fun _ after => ¬ (entryOf state slot opens).orphan ∧ entryOf after slot opens =
        { entryOf state slot opens with ref := (entryOf state slot opens).ref - 1 })
      (fun _ _ => (entryOf state slot opens).orphan) := by
  have last : (state.icache slot).ref = 1 ↔ (state.icache slot).ref.toNat = 1 := by omega
  refine Wp.peek ?_
  refine Wp.bind (Wp.onlyIf (fun orphan => ?_) fun kept => ?_)
  · exact (Wp.never (halts_iputFree _ outside)).mono (fun _ _ impossible => impossible.elim)
      fun _ _ _ => ⟨last.mp orphan.1, orphan.2⟩
  · refine Wp.change ⟨fun orphan => kept ⟨last.mpr orphan.1, orphan.2⟩, ?_⟩
    have lowered : ((state.icache slot).ref - 1).toNat = (state.icache slot).ref.toNat - 1 := by omega
    simp only [entryOf, State.setInode, Function.update_self, lowered]
    rfl

end Kernel

end Xv6Dedup.Deletion
