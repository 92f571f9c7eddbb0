import Xv6Dedup.Kernel.InodesProperties
import Xv6Dedup.System.Calls
import Mathlib.Algebra.Group.Pi.Lemmas
import Mathlib.Tactic.Abel

/-!
# References to inodes

How much the code that walks paths, creates and removes entries adds to the
reference counts of the inode cache. `iget` takes a new entry only when no entry
in use has the inode number, so entries in use have different numbers. The one
other way to take a reference is `idup` of a working directory, which is in use.
-/

set_option autoImplicit false

namespace Xv6Dedup

open Function Program

/-- The counts have changed by `delta`, and `log.busy` is `logging`. -/
structure Shifted (state : State) (delta : Slot → Int) (logging : Bool) (next : State) : Prop where
  files : next.ftable = state.ftable
  pipes : next.pipes = state.pipes
  cwd : next.cwd = state.cwd
  logging : next.log.busy = logging
  refs : ∀ slot, (next.icache slot).ref = (state.icache slot).ref + delta slot

/-- Entries of the inode cache that are in use hold different inodes. -/
def State.Distinct (state : State) : Prop :=
  ∀ first second, 0 < (state.icache first).ref → 0 < (state.icache second).ref →
    (state.icache first).inum = (state.icache second).inum → first = second

/-- The working directory is in use, where that matters. -/
def State.Rooted (rooted : Bool) (state : State) : Prop :=
  rooted = true → 0 < (state.icache state.cwd).ref

/-- Entries in use are still different, if a working directory that is duplicated
was in use. -/
structure Moved (rooted : Bool) (state : State) (delta : Slot → Int) (logging : Bool)
    (next : State) : Prop extends Shifted state delta logging next where
  distinct : state.Rooted rooted → state.Distinct → next.Distinct

/-- The program changes the counts by an amount that its result tells, and `log.busy` by `ends`. -/
def Runs {α : Type} (ends : Bool → Bool) (rooted : Bool) (delta : α → Slot → Int) (program : FsM α) : Prop :=
  ∀ state, Wp (fun _ => True) program state (fun value => Moved rooted state (delta value) (ends state.log.busy))
    (fun reason _ => state.log.busy = true → reason ≠ outsideTrans)

abbrev Moves {α : Type} (rooted : Bool) (delta : α → Slot → Int) (program : FsM α) : Prop :=
  Runs id rooted delta program

abbrev Shifts {α : Type} (delta : α → Slot → Int) (program : FsM α) : Prop :=
  Moves false delta program

/-- The program ends the transaction it is in. -/
abbrev Closes {α : Type} (rooted : Bool) (delta : α → Slot → Int) (program : FsM α) : Prop :=
  Runs (fun _ => false) rooted delta program

abbrev one (ip : Slot) : Slot → Int := Pi.single ip 1

theorem one_self (ip : Slot) : one ip ip = 1 := Pi.single_eq_same ip 1

theorem one_of_ne {ip slot : Slot} (other : slot ≠ ip) : one ip slot = 0 :=
  Pi.single_eq_of_ne other 1

theorem one_nonneg (ip slot : Slot) : 0 ≤ one ip slot := by
  by_cases same : slot = ip
  · rw [same, one_self]
    decide
  · rw [one_of_ne same]

def found {β : Type} : Option (Slot × β) → Slot → Int
  | none => 0
  | some (ip, _) => one ip

def foundInode : Option Slot → Slot → Int
  | none => 0
  | some ip => one ip

section Moves

variable {α β : Type} {ip dp : Slot} {rooted : Bool} {state middle next : State}

theorem Shifted.trans {first second : Slot → Int} {now later : Bool}
    (before : Shifted state first now middle) (after : Shifted middle second later next) :
    Shifted state (first + second) later next where
  files := after.files.trans before.files
  pipes := after.pipes.trans before.pipes
  cwd := after.cwd.trans before.cwd
  logging := after.logging
  refs slot := by
    rw [after.refs, before.refs, Pi.add_apply]
    abel

/-- What follows may need the working directory again if it is still in use. -/
theorem Moved.onwards {first second : Slot → Int} {now later again : Bool}
    (before : Moved rooted state first now middle) (after : Moved again middle second later next)
    (still : state.Rooted rooted → middle.Rooted again) : Moved rooted state (first + second) later next :=
  ⟨before.toShifted.trans after.toShifted, fun root distinct =>
    after.distinct (still root) (before.distinct root distinct)⟩

theorem Moved.trans {first second : Slot → Int} {now later : Bool}
    (before : Moved rooted state first now middle) (after : Moved false middle second later next) :
    Moved rooted state (first + second) later next :=
  before.onwards after fun _ => nofun

theorem Shifted.still {delta : Slot → Int} {now : Bool} (shifted : Shifted state delta now middle)
    (takes : 0 ≤ delta state.cwd) (root : state.Rooted rooted) : middle.Rooted rooted := by
  intro needed
  have used := root needed
  rw [shifted.cwd, shifted.refs]
  omega

theorem Confined.shifted (confined : Confined ip state next) : Shifted state 0 state.log.busy next :=
  { confined with
    refs := fun slot => by
      rw [Pi.zero_apply, add_zero]
      by_cases same : slot = ip
      · rw [same, confined.ref]
      · rw [confined.others slot same] }

theorem Confined.moved (confined : Confined ip state next) : Moved rooted state 0 state.log.busy next := by
  refine ⟨confined.shifted, fun _ distinct first second firstUsed secondUsed numbers => ?_⟩
  have place (slot : Slot) : (next.icache slot).place = (state.icache slot).place := by
    by_cases same : slot = ip
    · rw [same, confined.place]
    · rw [confined.others slot same]
  have ref (slot : Slot) : (next.icache slot).ref = (state.icache slot).ref :=
    congrArg Prod.fst (place slot)
  have inum (slot : Slot) : (next.icache slot).inum = (state.icache slot).inum :=
    congrArg Prod.snd (place slot)
  rw [ref] at firstUsed secondUsed
  rw [inum, inum] at numbers
  exact distinct first second firstUsed secondUsed numbers

theorem Confined.onwards {second : Slot → Int} {later : Bool} (confined : Confined ip state middle)
    (after : Moved rooted middle second later next) : Moved rooted state second later next := by
  have here : Moved rooted state 0 state.log.busy middle := confined.moved
  have both := here.onwards after (confined.shifted.still (le_refl _))
  rwa [zero_add] at both

variable {delta : α → Slot → Int} {ends : Bool → Bool} {inode : Inode}

namespace Runs

theorem pure (value : α) (zero : delta value = 0) : Moves rooted delta (Pure.pure value : FsM α) := by
  intro state
  refine Wp.pure ?_
  rw [zero]
  exact ((slotFrame 0).refl state).moved

theorem panic {message : String} (other : message ≠ "write outside of trans") :
    Runs ends rooted delta (kernelPanic message : FsM α) :=
  fun _ => Wp.throw fun _ same => other (Stop.panic.inj same)

theorem bind {first : FsM β} {rest : β → FsM α} {before : β → Slot → Int} (firstMoves : Moves rooted before first)
    (restRuns : ∀ value, Runs ends false (fun result => delta result - before value) (rest value)) :
    Runs ends rooted delta (first >>= rest) := by
  intro state
  refine Wp.seq (firstMoves state) fun value middle moved => ?_
  have logging : middle.log.busy = state.log.busy := moved.logging
  have runs := restRuns value middle
  rw [logging] at runs
  refine runs.post fun result next after => ?_
  have both := moved.trans after
  rwa [add_sub_cancel] at both

theorem ite {condition : Prop} [Decidable condition] {yes no : FsM α}
    (yesRuns : Runs ends rooted delta yes) (noRuns : Runs ends rooted delta no) :
    Runs ends rooted delta (if condition then yes else no) :=
  fun state => Wp.ite (fun _ => yesRuns state) fun _ => noRuns state

theorem congr {program : FsM α} {other : α → Slot → Int} (runs : Runs ends rooted delta program)
    (same : ∀ value, delta value = other value) : Runs ends rooted other program :=
  fun state => (runs state).post fun value _ moved => same value ▸ moved

theorem after {first : FsM β} {rest : β → FsM α} (touches : Touches ip first)
    (restRuns : ∀ value, Runs ends rooted delta (rest value)) : Runs ends rooted delta (first >>= rest) := by
  intro state
  refine Wp.seq (touches state) fun value middle confined => ?_
  have runs := restRuns value middle
  rw [confined.logging] at runs
  exact runs.post fun _ _ => confined.onwards

theorem apart {first : FsM β} {rest : β → FsM α} (touches : ∀ slot, Touches slot first)
    (restRuns : ∀ value, Runs ends rooted delta (rest value)) : Runs ends rooted delta (first >>= rest) :=
  after (touches 0) restRuns

theorem reading {rest : Inode → FsM α} (restRuns : ∀ inode, Runs ends rooted delta (rest inode)) :
    Runs ends rooted delta (inodeAt ip >>= rest) :=
  apart (fun _ => touches_inodeAt _) restRuns

theorem store (ends : Bool → Bool) {rest : Unit → FsM α} (place : inode.place = (state.icache ip).place)
    (restRuns : Runs ends rooted delta (rest ())) : Wp (fun _ => True) (setInode ip inode >>= rest) state
      (fun value => Moved rooted state (delta value) (ends state.log.busy))
      (fun reason _ => state.log.busy = true → reason ≠ outsideTrans) := by
  have stored : Confined ip state (state.setInode ip inode) := ((slotFrame ip).refl state).setInode place
  exact Wp.set ((restRuns _).post fun _ _ => stored.onwards)

theorem modify {update : Inode → Inode} {rest : Inode → FsM α} (place : ∀ inode, (update inode).place = inode.place)
    (restRuns : ∀ inode, Runs ends rooted delta (rest inode)) :
    Runs ends rooted delta (do
      let inode ← inodeAt ip
      setInode ip (update inode)
      rest inode) :=
  fun _ => Wp.peek (store ends (place _) (restRuns _))

end Runs

/-! ## Taking and dropping references -/

theorem shifted_setInode {amount : Int} (ref : inode.ref = (state.icache ip).ref + amount) :
    Shifted state (Pi.single ip amount) state.log.busy (state.setInode ip inode) where
  files := rfl
  pipes := rfl
  cwd := rfl
  logging := rfl
  refs slot := by
    by_cases same : slot = ip
    · subst same
      simp [State.setInode, ref]
    · simp [State.setInode, same]

theorem moved_recount {amount : Int} (ref : inode.ref = (state.icache ip).ref + amount)
    (inum : inode.inum = (state.icache ip).inum)
    (used : state.Rooted rooted → 0 < inode.ref → 0 < (state.icache ip).ref) :
    Moved rooted state (Pi.single ip amount) state.log.busy (state.setInode ip inode) := by
  refine ⟨shifted_setInode ref, fun root distinct => distinct_update distinct ?_⟩
  intro still other apart otherUsed numbers
  exact apart (distinct other ip otherUsed (used root still) (numbers.trans inum))

theorem shifts_iget (inum : Nat) : Moves rooted one (iget inum) := by
  intro state
  refine Wp.see ?_
  cases found : state.findInode inum with
  | some slot =>
    exact Wp.set (Wp.pure (moved_recount rfl rfl fun _ _ => (State.findInode_some found).1))
  | none =>
    cases empty : state.emptyInode with
    | none => exact Wp.throw fun _ => by decide
    | some slot =>
      refine Wp.set (Wp.pure ⟨shifted_setInode ?_, fun _ distinct => ?_⟩)
      · rw [State.emptyInode_some empty]
        rfl
      · exact distinct_update distinct fun _ other _ used => State.findInode_none found other used

theorem shifts_iput : Moves rooted (fun _ => -one ip) (iput ip) := by
  refine Runs.reading fun inode => Runs.after touches_iputFree.onlyIf fun _ state => ?_
  rw [← Pi.single_neg]
  refine Wp.change (moved_recount rfl rfl fun _ used => ?_)
  have less : 0 < (state.icache ip).ref - 1 := used
  omega

theorem shifts_iunlockput : Moves rooted (fun _ => -one ip) (iunlockput ip) :=
  Runs.after touches_iunlock fun _ => shifts_iput

/-! ## Directories and paths -/

theorem shifts_dirlookup (name : List Byte) : Shifts found (dirlookup dp name) := by
  have scan : ∀ count off, Shifts found (dirlookupFrom dp name count off) := by
    intro count
    induction count with
    | zero => exact fun _ => Runs.pure none rfl
    | succ count ih =>
      intro off
      refine Runs.reading fun inode => ?_
      refine (Runs.pure none rfl).ite ?_
      refine Runs.after (touches_readDirent off (by decide)) fun de => Runs.ite ?_ (ih _)
      exact (shifts_iget _).bind fun ip => Runs.pure (some (ip, off)) (sub_self _)
  refine Runs.reading fun inode => ?_
  exact (Runs.panic (by decide)).ite (scan _ _)

theorem shifts_dirlink (name : List Byte) (inum : Nat) : Shifts (fun _ => 0) (dirlink dp name inum) := by
  refine (shifts_dirlookup name).bind fun present => ?_
  cases present with
  | some entry =>
    exact shifts_iput.bind fun _ => Runs.pure _ (by simp [found])
  | none =>
    refine Runs.reading fun inode => ?_
    refine Runs.after (touches_emptyFrom _ _) fun off => ?_
    refine Runs.after (touches_writei _ _ _) fun r => ?_
    exact (Runs.panic (by decide)).ite (Runs.pure _ (sub_zero _))

theorem skipelem_shorter {path name rest : List Byte} (next : skipelem path = some (name, rest)) :
    rest.length < path.length := by
  have outer := (List.dropWhile_sublist (l := path) (· = slash)).length_le
  unfold skipelem at next
  cases kept : path.dropWhile (· = slash) with
  | nil => simp [kept] at next
  | cons head tail =>
    have other : head ≠ slash := by
      have first := List.head?_dropWhile_not (· = slash) path
      simpa [kept] using first
    have inner := (List.dropWhile_sublist (l := tail) (· ≠ slash)).length_le
    have last := (List.dropWhile_sublist (l := tail.dropWhile (· ≠ slash)) (· = slash)).length_le
    simp only [kept, reduceCtorEq, if_false, List.dropWhile_cons, other, ne_eq, not_false_eq_true,
      decide_true, if_true, Option.some.injEq, Prod.mk.injEq] at next
    obtain ⟨_, rfl⟩ := next
    rw [kept, List.length_cons] at outer
    simp only [ne_eq] at inner last
    omega

theorem shifts_namexFrom (nameiparent : Bool) {count : Nat} {path : List Byte} (enough : path.length < count) :
    Shifts (fun result => found result - one ip) (namexFrom nameiparent count ip path) := by
  induction count generalizing ip path with
  | zero => exact absurd enough (Nat.not_lt_zero _)
  | succ count ih =>
    unfold namexFrom
    cases next : skipelem path with
    | none =>
      refine Runs.ite ?_ (Runs.pure _ (sub_self _))
      exact shifts_iput.bind fun _ => Runs.pure none (by simp [found])
    | some element =>
      obtain ⟨name, rest⟩ := element
      have shorter := skipelem_shorter next
      refine Runs.after touches_ilock fun _ => ?_
      refine Runs.reading fun inode => Runs.ite ?_ ?_
      · exact shifts_iunlockput.bind fun _ => Runs.pure none (by simp [found])
      refine Runs.ite ?_ ?_
      · exact Runs.after touches_iunlock fun _ => Runs.pure _ (sub_self _)
      refine (shifts_dirlookup name).bind fun entry => ?_
      cases entry with
      | none => exact shifts_iunlockput.bind fun _ => Runs.pure none (by simp [found])
      | some entry =>
        obtain ⟨following, off⟩ := entry
        have onwards : Shifts (fun result => found result - one following)
          (namexFrom nameiparent count following rest) := ih (by omega)
        refine shifts_iunlockput.bind fun _ => onwards.congr fun result => ?_
        abel

theorem moves_startInode (path : List Byte) : Moves true one (startInode path) := by
  intro state
  refine Wp.see (Wp.ite (fun _ => shifts_iget ROOTINO state) fun _ => ?_)
  exact Wp.set (Wp.pure (moved_recount rfl rfl fun rooted _ => rooted rfl))

theorem moves_namex (path : List Byte) (nameiparent : Bool) : Moves true found (namex path nameiparent) :=
  (moves_startInode path).bind fun _ => shifts_namexFrom nameiparent (Nat.lt_succ_self _)

theorem moves_namei (path : List Byte) : Moves true foundInode (namei path) := by
  refine (moves_namex path false).bind fun result => ?_
  cases result with
  | none | some entry => exact Runs.pure _ (sub_self _)

/-! ## Creating inodes -/

theorem shifts_ialloc (type : Nat) : Shifts one (ialloc type) := by
  have scan : ∀ count inum, Shifts one (iallocFrom type count inum) := by
    intro count
    induction count with
    | zero => exact fun _ => Runs.panic (by decide)
    | succ count ih =>
      intro inum
      refine Runs.apart (fun _ => touches_bread _) fun bp => ?_
      refine Runs.apart (fun _ => touches_bdata _) fun data => Runs.ite ?_ ?_
      · refine Runs.apart (fun _ => touches_bset _ _) fun _ => ?_
        refine Runs.apart (fun _ => touches_log_write _) fun _ => ?_
        exact Runs.apart (fun _ => touches_brelse _) fun _ => shifts_iget inum
      · exact Runs.apart (fun _ => touches_brelse _) fun _ => ih _
  exact Runs.apart (fun _ => touches_readsb) fun sb => scan _ _

theorem shifts_linkDots : Shifts (fun _ => 0) (linkDots ip dp) := by
  refine Runs.modify (fun _ => rfl) fun parent => Runs.apart (fun _ => touches_iupdate _) fun _ => ?_
  refine Runs.reading fun inode => ?_
  refine (shifts_dirlink _ _).bind fun self => (Runs.panic (by decide)).ite ?_
  refine (shifts_dirlink _ _).bind fun up => (Runs.panic (by decide)).ite ?_
  exact Runs.pure () (by simp)

theorem shifts_createNew (name : List Byte) (type major minor : Nat) :
    Shifts (fun made => foundInode made - one dp) (createNew dp name type major minor) := by
  refine (shifts_ialloc type).bind fun ip => Runs.after touches_ilock fun _ => ?_
  refine Runs.modify (fun _ => rfl) fun inode => Runs.apart (fun _ => touches_iupdate _) fun _ => ?_
  have dots : Shifts (fun _ => 0) (onlyIf (type = T_DIR) (linkDots ip dp)) :=
    shifts_linkDots.ite (Runs.pure () rfl)
  refine dots.bind fun _ => (shifts_dirlink _ _).bind fun r => (Runs.panic (by decide)).ite ?_
  refine shifts_iunlockput.bind fun _ => Runs.pure _ ?_
  simp only [foundInode]
  abel

theorem moves_create (path : List Byte) (type major minor : Nat) :
    Moves true foundInode (create path type major minor) := by
  refine (moves_namex path true).bind fun parent => ?_
  cases parent with
  | none => exact Runs.pure none (sub_self _)
  | some parent =>
    obtain ⟨dp, name⟩ := parent
    refine Runs.after touches_ilock fun _ => (shifts_dirlookup name).bind fun present => ?_
    cases present with
    | none => exact (shifts_createNew name type major minor).congr fun _ => (sub_zero _).symm
    | some entry =>
      refine shifts_iunlockput.bind fun _ => Runs.after touches_ilock fun _ => ?_
      refine Runs.reading fun inode => Runs.ite (Runs.pure _ ?_) ?_
      · simp only [foundInode, found]
        abel
      · refine shifts_iunlockput.bind fun _ => Runs.pure none ?_
        simp only [foundInode, found]
        abel

end Moves

/-! ## Ending the transaction -/

section Closes

variable {α β : Type} {ip dp : Slot} {rooted : Bool} {delta : α → Slot → Int}

theorem icache_of_touches {program : FsM α} {state : State} (touches : ∀ slot, Touches slot program) :
    Wp (fun _ => True) program state (fun _ next => Confined 0 state next ∧ next.icache = state.icache)
      (fun reason _ => state.log.busy = true → reason ≠ outsideTrans) := by
  refine ((touches 0 state).and (touches 1 state)).mono (fun _ next both => ⟨both.1, ?_⟩) fun _ _ both => both.1
  funext slot
  by_cases first : slot = 0
  · exact both.2.others slot (by rw [first]; decide)
  · exact both.1.others slot first

theorem commit_trans_keeps {state : State} : Wp (fun _ => True) commit_trans state
      (fun _ next => Moved false state 0 false next ∧ next.icache = state.icache)
      (fun reason _ => state.log.busy = true → reason ≠ outsideTrans) := by
  refine Wp.see (Wp.seq (icache_of_touches fun _ => touches_commit.onlyIf) ?_)
  rintro _ next ⟨confined, same⟩
  have shifted := confined.shifted
  exact Wp.change ⟨⟨⟨shifted.files, shifted.pipes, shifted.cwd, rfl, shifted.refs⟩, confined.moved.distinct⟩, same⟩

theorem closes_commit_trans : Closes rooted (fun _ => 0) commit_trans :=
  fun _ => commit_trans_keeps.post fun _ _ kept => ⟨kept.1.toShifted, fun _ => kept.1.distinct nofun⟩

theorem Runs.last {value : α} (zero : delta value = 0) :
    Closes rooted delta (commit_trans >>= fun _ => Pure.pure value) := by
  intro state
  have commits : Closes rooted (fun _ => 0) commit_trans := closes_commit_trans
  refine Wp.seq (commits state) fun _ next moved => Wp.pure ?_
  rwa [zero]

theorem closes_drop {value : α} (drops : delta value = -one ip) : Closes rooted delta (do
      iunlockput ip
      commit_trans
      Pure.pure value) :=
  Runs.bind shifts_iunlockput fun _ => Runs.last (sub_eq_zero.mpr drops)

theorem closes_unlinkBad : Closes false (fun _ => -one dp) (unlinkBad dp) := closes_drop rfl

theorem closes_unlinkEntry (off : Nat) : Closes false (fun _ => -one dp - one ip) (unlinkEntry dp ip off) := by
  have lower : Touches dp (do
      let parent ← inodeAt dp
      setInode dp { parent with nlink := (parent.nlink + 2 ^ 16 - 1) % 2 ^ 16 }
      iupdate dp) := touches_modify (by intro _; simp only [Inode.place]) fun _ => touches_iupdate _
  refine Runs.after (touches_writei _ _ _) fun r => (Runs.panic (by decide)).ite ?_
  refine Runs.reading fun inode => Runs.after lower.onlyIf fun _ => ?_
  refine Runs.bind shifts_iunlockput fun _ => ?_
  refine Runs.modify (by intro _; simp only [Inode.place]) fun inode => Runs.apart (fun _ => touches_iupdate _) fun _ => ?_
  refine closes_drop ?_
  abel

theorem closes_linkBad : Closes false (fun _ => -one ip) (linkBad ip) := by
  refine Runs.after touches_ilock fun _ => Runs.modify (by intro _; simp only [Inode.place]) fun inode => ?_
  exact Runs.apart (fun _ => touches_iupdate _) fun _ => closes_drop rfl

theorem closes_linkInode (new : List Byte) : Closes true (fun _ => -one ip) (linkInode ip new) := by
  refine Runs.after touches_ilock fun _ state => ?_
  refine Wp.peek (Wp.ite (fun _ => ?_) fun _ => ?_)
  · exact (closes_drop rfl : Closes true (fun _ : Int => -one ip) _) state
  · refine Runs.store (fun _ => false) rfl (Runs.apart (fun _ => touches_iupdate _) fun _ => ?_)
    refine Runs.after touches_iunlock fun _ => Runs.bind (moves_namex new true) fun parent => ?_
    cases parent with
    | none => exact closes_linkBad.congr fun _ => (sub_zero _).symm
    | some parent =>
      obtain ⟨dp, name⟩ := parent
      refine Runs.after touches_ilock fun _ => Runs.reading fun inode => ?_
      refine Runs.bind (shifts_dirlink name _) fun r => Runs.ite ?_ ?_
      · refine Runs.bind shifts_iunlockput fun _ => closes_linkBad.congr fun _ => ?_
        simp only [found]
        abel
      · refine Runs.bind shifts_iunlockput fun _ => Runs.bind shifts_iput fun _ => ?_
        refine Runs.last ?_
        simp only [found]
        abel

end Closes

end Xv6Dedup
