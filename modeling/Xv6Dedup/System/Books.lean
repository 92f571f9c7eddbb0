import Xv6Dedup.System.Discipline
import Mathlib.Tactic.Ring

/-!
# Reference counts

Descriptors account for the counts of file structures, file structures and
working directories for the counts of cached inodes, and the two ends of a pipe
for its page. Every call that returns keeps the accounts, whatever it found.
-/

set_option autoImplicit false

namespace Xv6Dedup

open Program
open Function (update update_eq_self update_idem update_of_ne update_self)

/-! ## Pipes -/

def File.IsEnd (file : File) (p : Nat) (writable : Bool) : Prop :=
  file.type = .pipe ∧ file.pipe = p ∧ file.writable = writable

variable {file : File} {p : Nat} {writable : Bool}

theorem readEnd_isEnd {q : Nat} : (readEnd file p).IsEnd q writable ↔ q = p ∧ writable = false :=
  ⟨fun isEnd => ⟨isEnd.2.1.symm, isEnd.2.2.symm⟩, fun same => ⟨rfl, same.1.symm, same.2.symm⟩⟩

theorem writeEnd_isEnd {q : Nat} : (writeEnd file p).IsEnd q writable ↔ q = p ∧ writable = true :=
  ⟨fun isEnd => ⟨isEnd.2.1.symm, isEnd.2.2.symm⟩, fun same => ⟨rfl, same.1.symm, same.2.symm⟩⟩

theorem not_isEnd (type : file.type = .none) : ¬ file.IsEnd p writable := by
  intro isEnd
  have wrong := isEnd.1
  rw [type] at wrong
  cases wrong

def endOpen (writable : Bool) : Option Pipe → Bool
  | none => false
  | some pipe => if writable then pipe.writeopen else pipe.readopen

/-- A pipe page knows which of its ends are open, and one of them is. -/
structure PipesOk (files : Fin NFILE → File) (pipes : Nat → Option Pipe) : Prop where
  ends : ∀ p writable, endOpen writable (pipes p) = true ↔ ∃ f, (files f).IsEnd p writable
  kept : ∀ p pipe, pipes p = some pipe → pipe.readopen = true ∨ pipe.writeopen = true
  unique : ∀ f g p writable, (files f).IsEnd p writable → (files g).IsEnd p writable → f = g

/-- The page after one end is closed. -/
def Pipe.closed (pipe : Pipe) (writable : Bool) : Option Pipe :=
  if (pipe.shut writable).readopen = false ∧ (pipe.shut writable).writeopen = false then none
  else some (pipe.shut writable)

theorem endOpen_shut (pipe : Pipe) (writable shut : Bool) :
    endOpen writable (pipe.closed shut) = (endOpen writable (some pipe) && decide (¬ writable = shut)) := by
  obtain ⟨nread, nwrite, reading, writing⟩ := pipe
  cases shut <;> cases writable <;> cases reading <;> cases writing <;> rfl

variable {f : Fin NFILE}

section Pipes

variable {files changed : Fin NFILE → File} {pipes : Nat → Option Pipe}

variable (ok : PipesOk files pipes)
include ok

theorem PipesOk.congr (same : ∀ f p writable, (changed f).IsEnd p writable ↔ (files f).IsEnd p writable) :
    PipesOk changed pipes where
  ends p writable := by
    rw [ok.ends p writable]
    exact exists_congr fun f => (same f p writable).symm
  kept := ok.kept
  unique f g p writable first second :=
    ok.unique f g p writable ((same f p writable).mp first) ((same g p writable).mp second)

theorem PipesOk.refile (same : ∀ p writable, file.IsEnd p writable ↔ (files f).IsEnd p writable) :
    PipesOk (update files f file) pipes := by
  refine ok.congr fun g p writable => ?_
  by_cases here : g = f
  · subst here
    rw [update_self]
    exact same p writable
  · rw [update_of_ne here]

theorem PipesOk.close {pipe : Pipe} (type : (files f).type = .pipe) (closed : file.type = .none)
    (present : pipes (files f).pipe = some pipe) :
    PipesOk (update files f file) (update pipes (files f).pipe (pipe.closed (files f).writable)) := by
  have here : (files f).IsEnd (files f).pipe (files f).writable := ⟨type, rfl, rfl⟩
  have others : ∀ g p writable, (update files f file g).IsEnd p writable ↔
      (files g).IsEnd p writable ∧ ¬ (p = (files f).pipe ∧ writable = (files f).writable) := by
    intro g p writable
    by_cases same : g = f
    · subst same
      rw [update_self]
      refine ⟨fun isEnd => ?_, fun isEnd => ?_⟩
      · exact absurd isEnd (not_isEnd closed)
      · exact absurd ⟨isEnd.1.2.1.symm, isEnd.1.2.2.symm⟩ isEnd.2
    · rw [update_of_ne same]
      refine ⟨fun isEnd => ⟨isEnd, ?_⟩, fun isEnd => isEnd.1⟩
      rintro ⟨rfl, rfl⟩
      exact same (ok.unique g f _ _ isEnd here)
  refine ⟨fun p writable => ?_, fun p other => ?_, fun g h p writable first second => ?_⟩
  · have closing : endOpen writable (update pipes (files f).pipe (pipe.closed (files f).writable) p) = true ↔
        endOpen writable (pipes p) = true ∧ ¬ (p = (files f).pipe ∧ writable = (files f).writable) := by
      by_cases page : p = (files f).pipe
      · subst page
        rw [update_self, present, endOpen_shut, Bool.and_eq_true, decide_eq_true_iff]
        simp only [true_and]
      · rw [update_of_ne page]
        simp only [page, false_and, not_false_eq_true, and_true]
    rw [closing, ok.ends p writable]
    simp only [others, exists_and_right]
  · by_cases page : p = (files f).pipe
    · subst page
      rw [update_self, Pipe.closed]
      intro same
      split at same
      · cases same
      · rename_i open_
        cases same
        cases first : (pipe.shut (files f).writable).readopen with
        | true => exact .inl rfl
        | false =>
          cases second : (pipe.shut (files f).writable).writeopen with
          | true => exact .inr rfl
          | false => exact absurd ⟨first, second⟩ open_
    · rw [update_of_ne page]
      exact ok.kept p other
  · exact ok.unique g h p writable ((others g p writable).mp first).1 ((others h p writable).mp second).1

theorem PipesOk.open {f0 f1 : Fin NFILE} (apart : f0 ≠ f1) (first : (files f0).type = .none)
    (second : (files f1).type = .none) (free : pipes p = none) :
    PipesOk (update (update files f0 (readEnd (files f0) p)) f1
      (writeEnd (files f1) p)) (update pipes p (some {})) := by
  have unused : ∀ g writable, ¬ (files g).IsEnd p writable := by
    intro g writable isEnd
    have opened := (ok.ends p writable).mpr ⟨g, isEnd⟩
    rw [free] at opened
    cases opened
  have changed : ∀ g q writable, (update (update files f0 (readEnd (files f0) p)) f1
      (writeEnd (files f1) p) g).IsEnd q writable ↔ (files g).IsEnd q writable ∨
        q = p ∧ g = (if writable then f1 else f0) := by
    intro g q writable
    by_cases last : g = f1
    · subst last
      rw [update_self]
      rw [writeEnd_isEnd, iff_false_intro (not_isEnd second)]
      cases writable <;> simp [Ne.symm apart]
    · rw [update_of_ne last]
      by_cases start : g = f0
      · subst start
        rw [update_self]
        rw [readEnd_isEnd, iff_false_intro (not_isEnd first)]
        cases writable <;> simp [last]
      · cases writable <;> simp [start, last]
  refine ⟨fun q writable => ?_, fun q pipe => ?_, fun g h q writable one two => ?_⟩
  · simp only [changed, exists_or, exists_and_left, exists_eq, and_true]
    by_cases page : q = p
    · subst page
      cases writable <;> simp [endOpen]
    · rw [update_of_ne page]
      simp only [page, or_false]
      exact ok.ends q writable
  · by_cases page : q = p
    · subst page
      rw [update_self]
      intro same
      cases same
      exact .inl rfl
    · rw [update_of_ne page]
      exact ok.kept q pipe
  · rcases (changed g q writable).mp one with before | ⟨rfl, rfl⟩
    · rcases (changed h q writable).mp two with also | ⟨rfl, _⟩
      · exact ok.unique g h q writable before also
      · exact absurd before (unused g writable)
    · rcases (changed h q writable).mp two with also | ⟨_, same⟩
      · exact absurd also (unused h writable)
      · exact same.symm

end Pipes

/-! ## The accounts -/

def handle (entry : Option (Fin NFILE)) (f : Fin NFILE) : Int := if entry = some f then 1 else 0

/-- The kernel when `handles` descriptors refer to each file structure and
`dirs` working directories to each cached inode. -/
structure Books (handles : Fin NFILE → Int) (dirs : Slot → Int) (state : State) : Prop where
  idle : state.log.busy = false
  handles : ∀ f, (state.ftable f).ref = handles f
  closed : state.Closed
  balance : ∀ slot, state.balance slot = dirs slot
  distinct : state.Distinct
  pipes : PipesOk state.ftable state.pipes

structure Unmoved (state next : State) : Prop where
  files : ∀ f, (next.ftable f).ref = (state.ftable f).ref
  inodes : ∀ slot, (next.icache slot).ref = (state.icache slot).ref
  pipes : next.pipes = state.pipes

variable {more : Fin NFILE → Int}

section Books

variable {α : Type} {handles : Fin NFILE → Int} {dirs delta : Slot → Int} {state next : State}

theorem Unmoved.refl (state : State) : Unmoved state state := ⟨fun _ => rfl, fun _ => rfl, rfl⟩

theorem Shifted.unmoved (shifted : Shifted state 0 false next) : Unmoved state next where
  files f := by rw [shifted.files]
  inodes slot := by rw [shifted.refs, Pi.zero_apply, add_zero]
  pipes := shifted.pipes

theorem Refiled.unmoved (refiled : Refiled state next) : Unmoved state next where
  files := refiled.ref
  inodes slot := by rw [refiled.rest]
  pipes := by rw [refiled.rest]

section

variable (books : Books handles dirs state)
include books

theorem Books.carried (carried : Carried state delta false next) (counts : ∀ f, (next.ftable f).ref = more f)
    (distinct : next.Distinct) (pipes : PipesOk next.ftable next.pipes) : Books more (dirs + delta) next where
  idle := carried.logging
  handles := counts
  closed := carried.closed books.closed
  balance slot := by rw [carried.balance, books.balance, Pi.add_apply]
  distinct := distinct
  pipes := pipes

theorem Books.rooted (inside : 0 < dirs state.cwd) : 0 < (state.icache state.cwd).ref := by
  have balance := books.balance state.cwd
  have files : 0 ≤ ∑ f, (state.ftable f).on state.cwd := Finset.sum_nonneg fun f _ => by
    unfold File.on
    split <;> decide
  unfold State.balance at balance
  omega

theorem Books.moved {rooted : Bool} (moved : Moved rooted state delta false next)
    (inside : rooted = true → 0 < dirs state.cwd) : Books handles (dirs + delta) next := by
  have root : state.Rooted rooted := fun needed => books.rooted (inside needed)
  refine books.carried moved.carried (fun f => ?_) (moved.distinct root books.distinct) ?_
  · rw [moved.files, books.handles]
  · rw [moved.files, moved.pipes]
    exact books.pipes

/-! ## File structures -/

end

theorem handle_eq (f g : Fin NFILE) : handle (some f) g = if g = f then 1 else 0 := by
  simp only [handle, Option.some.injEq, eq_comm]

theorem handle_none (f : Fin NFILE) : handle none f = 0 := rfl

theorem setFile_ref (f g : Fin NFILE) (file : File) :
    ((state.setFile f file).ftable g).ref = if g = f then file.ref else (state.ftable g).ref := by
  by_cases same : g = f
  · subst same
    simp only [State.setFile, update_self, if_true]
  · simp only [State.setFile, update_of_ne same, if_neg same]

section

variable (books : Books handles dirs state)
include books

theorem Books.counts {amount : Int} (ref : file.ref = (state.ftable f).ref + amount) (g : Fin NFILE) :
    ((state.setFile f file).ftable g).ref = handles g + amount * handle (some f) g := by
  rw [setFile_ref, handle_eq, ← books.handles]
  by_cases same : g = f
  · rw [if_pos same, if_pos same, same, mul_one]
    exact ref
  · rw [if_neg same, if_neg same, mul_zero, add_zero]

theorem Books.recount {ref amount : Int} (counts : ref = (state.ftable f).ref + amount) (stays : ref ≠ 0) :
    Books (fun g => handles g + amount * handle (some f) g) dirs
      (state.setFile f { state.ftable f with ref := ref }) := by
  have carried : Carried state 0 false (state.setFile f { state.ftable f with ref := ref }) := by
    rw [← books.idle]
    exact carried_refile rfl rfl fun _ zero => absurd zero stays
  have after := books.carried carried (books.counts counts) books.distinct (books.pipes.refile fun _ _ => Iff.rfl)
  rwa [add_zero] at after

theorem Books.duplicate (f : Fin NFILE) : Yields (filedup f) state fun _ next =>
      Books (fun g => handles g + handle (some f) g) dirs next ∧ next.cwd = state.cwd := by
  refine Wp.peek (Wp.guard trivial fun used => ?_)
  have more : Books (fun g => handles g + 1 * handle (some f) g) dirs _ :=
    books.recount (f := f) rfl (by omega)
  simp only [one_mul] at more
  exact Wp.change ⟨more, rfl⟩

theorem Books.fileclose_tables (f : Fin NFILE) : Yields (fileclose f) state fun _ next =>
      (∀ g, (next.ftable g).ref = handles g - handle (some f) g) ∧ next.Distinct ∧ PipesOk next.ftable next.pipes := by
  refine Wp.peek (Wp.guard trivial fun used => ?_)
  refine Wp.ite (fun more => ?_) fun last => ?_
  · have fewer : Books (fun g => handles g + -1 * handle (some f) g) dirs _ :=
      books.recount (f := f) rfl (by omega)
    refine Wp.change ⟨fun g => ?_, fewer.distinct, fewer.pipes⟩
    exact (fewer.handles g).trans (by ring)
  · have counts : ∀ g, ((state.setFile f { state.ftable f with ref := 0, type := .none }).ftable g).ref
        = handles g - handle (some f) g := by
      intro g
      have ref : (0 : Int) = (state.ftable f).ref + -1 := by omega
      rw [books.counts ref]
      ring
    refine Wp.set ?_
    have unpiped : (state.ftable f).type ≠ .pipe → PipesOk
        (state.setFile f { state.ftable f with ref := 0, type := .none }).ftable state.pipes :=
      fun other => books.pipes.refile fun p writable =>
        ⟨fun isEnd => absurd isEnd (not_isEnd rfl), fun isEnd => absurd isEnd.1 other⟩
    cases type : (state.ftable f).type with
    | none => exact Wp.pure ⟨counts, books.distinct, unpiped (by rw [type]; rintro ⟨⟩)⟩
    | pipe =>
      refine Wp.see ?_
      cases present : state.pipes (state.ftable f).pipe with
      | none =>
        simp only [State.setFile, present]
        exact Wp.throw trivial
      | some pipe =>
        simp only [State.setFile, present]
        exact Wp.change ⟨counts, books.distinct, books.pipes.close type rfl present⟩
    | inode =>
      refine Wp.seq begin_trans_wp.yields ?_
      rintro _ _ rfl
      have drops : Closes false (fun _ => -one (state.ftable f).ip) (do
          iput (state.ftable f).ip
          commit_trans) :=
        Runs.bind shifts_iput fun _ => closes_commit_trans.congr fun _ => (sub_self _).symm
      refine (drops _).yields.post fun _ next shifted => ?_
      refine ⟨fun g => ?_, shifted.distinct (by rintro ⟨⟩) books.distinct, ?_⟩
      · rw [shifted.files]
        exact counts g
      · rw [shifted.files, shifted.pipes]
        exact unpiped (by rw [type]; rintro ⟨⟩)

theorem Books.release (f : Fin NFILE) : Yields (fileclose f) state fun _ next =>
      Books (fun g => handles g - handle (some f) g) dirs next ∧ next.cwd = state.cwd := by
  refine ((books.fileclose_tables f).and (fileclose_wp books.idle f 0 0)).mono ?_ fun _ _ _ => trivial
  rintro _ next ⟨⟨counts, distinct, pipes⟩, carried, _⟩
  have after := books.carried carried counts distinct pipes
  rw [add_zero] at after
  exact ⟨after, carried.cwd⟩

/-! ## Calls that walk paths -/

end

theorem sys_link_moved (idle : state.log.busy = false) (old new : List Byte) :
    Yields (sys_link old new) state fun _ => Moved true state 0 false := by
  refine Wp.seq (moves_namei old state).yields fun found middle looked => ?_
  rw [idle] at looked
  cases found with
  | none => exact Wp.pure looked
  | some ip =>
    refine (closes_linkInode new).wp.yields.post fun _ next closed => ?_
    have after := looked.onwards closed (looked.still (one_nonneg _ _))
    rwa [foundInode, add_neg_cancel] at after

theorem sys_unlink_moved (idle : state.log.busy = false) (path : List Byte) :
    Yields (sys_unlink path) state fun _ => Moved true state 0 false := by
  refine Wp.seq (moves_namex path true state).yields fun parent middle looked => ?_
  rw [idle] at looked
  cases parent with
  | none => exact Wp.pure looked
  | some parent =>
    refine (closes_unlink parent.2).wp.yields.post fun _ next closed => ?_
    have after := looked.trans closed
    rwa [found, add_neg_cancel] at after

theorem moves_found (path : List Byte) (omode : Nat) : Moves true foundInode (do
    let found ← namei path
    match found with
    | none => pure none
    | some ip => do
      ilock ip
      let inode ← inodeAt ip
      if inode.type = T_DIR ∧ omode ≠ O_RDONLY then do
        iunlockput ip
        pure none
      else pure (some ip)) := by
  refine (moves_namei path).bind fun found => ?_
  cases found with
  | none => exact Runs.pure none (sub_self _)
  | some ip =>
    refine Runs.after touches_ilock fun _ => Runs.reading fun inode => Runs.ite ?_ ?_
    · exact shifts_iunlockput.bind fun _ => Runs.pure none (by simp [foundInode])
    · exact Runs.pure _ (sub_self _)

theorem openInode_moved (idle : state.log.busy = false) (path : List Byte) (omode : Nat) :
    Yields (openInode path omode) state fun opened => Moved true state (foundInode opened) false := by
  refine Wp.ite (fun _ => ?_) fun _ => ?_
  · have body : Closes true foundInode (do
        let ip ← create path T_FILE 0 0
        commit_trans
        pure ip) :=
      Runs.bind (moves_create path T_FILE 0 0) fun ip => Runs.last (sub_self _)
    exact body.wp.yields
  · have moved := (moves_found path omode state).yields
    rwa [idle] at moved

private theorem reading_touches (ip : Slot) : Reading ip fun _ program => Touches ip program where
  pure := Frame.Keeps.pure
  panic other := Frame.Keeps.throw fun _ _ same => other (Stop.panic.inj same)
  ite := Frame.Keeps.ite
  bind := Frame.Keeps.bind
  readi _ := touches_readi _ _

private theorem exec_moves (path : List Byte) (memory : Memory) : Moves true (fun _ => 0) (exec path memory) := by
  refine (moves_namei path).bind fun found => ?_
  cases found with
  | none => exact Runs.pure _ (by simp [foundInode])
  | some ip =>
    refine Runs.after touches_ilock fun _ => Runs.after ((reading_touches ip).loadImage memory) fun _ => ?_
    exact shifts_iunlockput.bind fun _ => Runs.pure _ (by simp [foundInode])

end Books

/-! ## One call -/

/-- The descriptors of a process that refer to a file structure. -/
def held (f : Fin NFILE) : Option Proc → Int
  | none => 0
  | some proc => ∑ fd, handle (proc.ofile fd) f

/-- What a call leaves behind: the accounts with its descriptors and working
directories, and unchanged counts if it fails. -/
structure Balanced (handles : Fin NFILE → Int) (dirs : Slot → Int) (state : State) (proc : Proc)
    (outcome : Outcome) (next : State) : Prop where
  books : Books (fun f => handles f + (held f outcome.caller + held f outcome.child - held f (some proc)))
    (fun slot => dirs slot + (inDirectory slot outcome.caller + inDirectory slot outcome.child -
      inDirectory slot (some proc))) next
  failed : outcome.result = -1 → outcome.caller = some proc ∧ outcome.child = none ∧ Unmoved state next

section Calls

variable {handles : Fin NFILE → Int} {dirs : Slot → Int} {state next : State} {proc : Proc}

theorem held_update (proc : Proc) (fd : Fin NOFILE) (entry : Option (Fin NFILE)) (f : Fin NFILE) :
    held f (some { proc with ofile := update proc.ofile fd entry }) =
      held f (some proc) + (handle entry f - handle (proc.ofile fd) f) :=
  sum_update (fun entry => handle entry f) proc.ofile fd entry

theorem argfd_some {ofile : Ofile} {fd : Int} {entry : Fin NOFILE × Fin NFILE}
    (found : argfd ofile fd = some entry) : ofile entry.1 = some entry.2 := by
  unfold argfd at found
  split at found
  · obtain ⟨f, present, rfl⟩ := Option.map_eq_some_iff.mp found
    exact present
  · cases found

theorem Books.reckon {homes : Slot → Int} (books : Books handles dirs next) (files : ∀ f, handles f = more f)
    (inodes : ∀ slot, dirs slot = homes slot) : Books more homes next := by
  rw [← funext files, ← funext inodes]
  exact books

theorem balanced_same {result : Int} (books : Books handles dirs next) (failed : result = -1 → Unmoved state next) :
    Balanced handles dirs state proc { result := result, caller := some proc } next :=
  ⟨books.reckon (fun f => by simp [held]) fun slot => by simp [inDirectory], fun minus => ⟨rfl, rfl, failed minus⟩⟩

theorem balanced_files {ofile : Ofile} {result : Int} (books : Books more dirs next) (other : result ≠ -1)
    (counts : ∀ f, more f = handles f + (held f (some { proc with ofile := ofile }) - held f (some proc))) :
    Balanced handles dirs state proc { result := result, caller := some { proc with ofile := ofile } } next :=
  ⟨books.reckon (fun f => by rw [counts f, held, add_zero]) fun slot => by simp [inDirectory],
    fun minus => absurd minus other⟩

/-- The call balances, with the new descriptors and the result of `program`. -/
abbrev Files (handles : Fin NFILE → Int) (dirs : Slot → Int) (state : State) (proc : Proc)
    (program : FsM (Ofile × Int)) : Prop :=
  Yields (do
    let (ofile, result) ← program
    pure { result := result, caller := some { proc with ofile := ofile } : Outcome }) state
    (Balanced handles dirs state proc)

section

variable (books : Books handles dirs state)
include books

theorem Books.simply {program : FsM Int} (inside : 0 < dirs state.cwd)
    (moves : Yields program state fun _ => Moved true state 0 false) :
    Yields (do
      let result ← program
      pure { result := result, caller := some proc : Outcome }) state
      (Balanced handles dirs state proc) := by
  refine Wp.seq moves fun result next moved => Wp.pure ?_
  have after := books.moved moved fun _ => inside
  rw [add_zero] at after
  exact balanced_same after fun _ => moved.unmoved

theorem Books.performs_dup (fd : Int) : Files handles dirs state proc (sys_dup proc.ofile fd) := by
  have refused : Balanced handles dirs state proc { result := -1, caller := some proc } state :=
    balanced_same books fun _ => Unmoved.refl state
  unfold sys_dup
  cases argfd proc.ofile fd with
  | none => exact Wp.pure refused
  | some entry =>
    obtain ⟨_, f⟩ := entry
    cases allocating : fdalloc proc.ofile f with
    | none =>
      simp only [allocating]
      exact Wp.pure refused
    | some descriptor =>
      obtain ⟨changed, free⟩ := descriptor
      obtain ⟨unused, rfl⟩ := fdalloc_some allocating
      simp only [allocating]
      refine Wp.bind (Wp.seq (books.duplicate f) fun _ next both => Wp.pure (Wp.pure ?_))
      refine balanced_files both.1 (by omega) fun g => ?_
      rw [held_update, unused, handle_none]
      ring

theorem Books.performs_close (fd : Int) : Files handles dirs state proc (sys_close proc.ofile fd) := by
  unfold sys_close
  cases present : argfd proc.ofile fd with
  | none => exact Wp.pure (balanced_same books fun _ => Unmoved.refl state)
  | some entry =>
    obtain ⟨descriptor, f⟩ := entry
    have refers : proc.ofile descriptor = some f := argfd_some present
    refine Wp.bind (Wp.seq (books.release f) fun _ next both => Wp.pure (Wp.pure ?_))
    refine balanced_files both.1 (by decide) fun g => ?_
    rw [held_update, refers, handle_none]
    ring

theorem Books.performs_pipe (fetched : Bool) {page : Option Nat} (free : ∀ p, page = some p → state.pipes p = none) :
    Files handles dirs state proc (sys_pipe proc.ofile fetched page) := by
  refine Wp.seq (sys_pipe_wp books.closed proc.ofile fetched free).yields ?_
  rintro ⟨changed, result⟩ next piped
  have carried := piped.carried books.closed
  rw [books.idle] at carried
  refine Wp.pure ?_
  cases piped with
  | failed refiled =>
    have counts : ∀ f, (next.ftable f).ref = handles f := fun f =>
      (refiled.ref f).trans (books.handles f)
    have distinct : next.Distinct := by
      rw [refiled.rest]
      exact books.distinct
    have pipes : PipesOk next.ftable next.pipes := by
      have same : next.pipes = state.pipes := by rw [refiled.rest]
      rw [same]
      refine books.pipes.congr fun f p writable => ?_
      obtain ⟨type, kept⟩ := refiled.type books.closed f
      by_cases none : (state.ftable f).type = .none
      · exact iff_of_false (not_isEnd (type.trans none)) (not_isEnd none)
      · rw [kept none]
    have after := books.carried carried counts distinct pipes
    rw [add_zero] at after
    exact balanced_same after fun _ => refiled.unmoved
  | @made p f0 f1 fd0 fd1 apart firstUnused secondUnused unused firstFree secondFree =>
    have counts : ∀ f, ((state.withPipe p f0 f1).ftable f).ref =
        handles f + (handle (some f0) f + handle (some f1) f) := by
      intro f
      unfold State.withPipe
      rw [setFile_ref, setFile_ref, handle_eq, handle_eq]
      by_cases last : f = f1
      · rw [if_pos last, if_pos last, if_neg (by rw [last]; exact Ne.symm apart), last, ← books.handles, secondUnused]
        rfl
      · rw [if_neg last, if_neg last, add_zero]
        by_cases start : f = f0
        · rw [if_pos start, if_pos start, start, ← books.handles, firstUnused]
          rfl
        · rw [if_neg start, if_neg start, add_zero]
          exact books.handles f
    have opened := books.pipes.open apart (books.closed f0 firstUnused) (books.closed f1 secondUnused) unused
    have after := books.carried carried counts books.distinct opened
    rw [add_zero] at after
    refine balanced_files after (by decide) fun f => ?_
    have both : held f (some { proc with
        ofile := update (update proc.ofile fd0 (some f0)) fd1 (some f1) }) =
        held f (some { proc with ofile := update proc.ofile fd0 (some f0) }) +
          (handle (some f1) f - handle (update proc.ofile fd0 (some f0) fd1) f) :=
      held_update { proc with ofile := update proc.ofile fd0 (some f0) } fd1 (some f1) f
    rw [both, held_update, secondFree, firstFree, handle_none]
    ring

end

private theorem Books.opening {ip : Slot} (books : Books handles (dirs + one ip) state)
    (unused : (state.ftable f).ref = 0) (ref : file.ref = 1) (type : file.type = .inode)
    (inode : file.ip = ip) : Books (fun g => handles g + handle (some f) g) dirs (state.setFile f file) := by
  have none := books.closed f unused
  have carried : Carried state (-one ip) false (state.setFile f file) := by
    rw [← books.idle]
    refine carried_setFile (fun slot => ?_) fun _ zero => ?_
    · simp only [File.on, type, inode, none, true_and, reduceCtorEq, false_and, if_false,
        Pi.neg_apply, sub_neg_eq_add, zero_add, Pi.single_apply, eq_comm]
    · rw [ref] at zero
      cases zero
  have counts : ∀ g, ((state.setFile f file).ftable g).ref = handles g + handle (some f) g := by
    intro g
    have new : file.ref = (state.ftable f).ref + 1 := by rw [ref, unused, zero_add]
    rw [books.counts new, one_mul]
  have pipes : PipesOk (state.setFile f file).ftable state.pipes :=
    books.pipes.refile fun p writable =>
      iff_of_false (fun isEnd => by rw [File.IsEnd, type] at isEnd; cases isEnd.1) (not_isEnd none)
  have after := books.carried carried counts books.distinct pipes
  rwa [add_neg_cancel_right] at after

private theorem Books.drop {ip : Slot} (books : Books handles (dirs + one ip) state) :
    Yields (iunlockput ip) state fun _ next => Books handles dirs next ∧ Moved false state (-one ip) false next := by
  have drops : Shifts (fun _ => -one ip) (iunlockput ip) := shifts_iunlockput
  refine (drops state).yields.post fun _ next moved => ?_
  rw [books.idle] at moved
  have after := books.moved moved nofun
  rw [add_neg_cancel_right] at after
  exact ⟨after, moved⟩

section

variable (books : Books handles dirs state)
include books

theorem Books.performs_open (inside : 0 < dirs state.cwd) (path : List Byte) (omode : Nat) :
    Files handles dirs state proc (sys_open proc.ofile path omode) := by
  refine Wp.bind (Wp.seq (openInode_moved books.idle path omode) fun opened first moved => ?_)
  have firstBooks := books.moved moved fun _ => inside
  cases opened with
  | none =>
    rw [foundInode, add_zero] at firstBooks
    exact Wp.pure (Wp.pure (balanced_same firstBooks fun _ => moved.unmoved))
  | some ip =>
    -- dropping the inode again undoes the lookup
    have undo : ∀ result : Int, Yields (do
        iunlockput ip
        pure (proc.ofile, result)) first fun (ofile, result) next => Yields
          (pure { result := result, caller := some { proc with ofile := ofile } : Outcome })
          next (Balanced handles dirs state proc) := by
      intro result
      refine Wp.seq firstBooks.drop fun _ next done => Wp.pure (Wp.pure ?_)
      have total := moved.trans done.2
      rw [foundInode, add_neg_cancel] at total
      exact balanced_same done.1 fun _ => total.unmoved
    refine Wp.seq filealloc_exact.yields fun allocated second => ?_
    cases allocated with
    | none =>
      rintro rfl
      exact undo (-1)
    | some f =>
      rintro ⟨unused, rfl⟩
      cases allocating : fdalloc proc.ofile f with
      | none =>
        simp only [allocating]
        refine Wp.seq (fileclose_allocated firstBooks.closed unused).yields ?_
        rintro _ _ rfl
        exact undo (-1)
      | some descriptor =>
        obtain ⟨changed, fd⟩ := descriptor
        obtain ⟨free, rfl⟩ := fdalloc_some allocating
        simp only [allocating]
        refine Wp.seq iunlock_wp.yields ?_
        rintro _ _ rfl
        refine Wp.peek (Wp.set (Wp.pure (Wp.pure ?_)))
        have unlocked : Books handles (dirs + one ip) (first.setInode ip { first.icache ip with busy := false }) := by
          have here : Confined ip first (first.setInode ip { first.icache ip with busy := false }) :=
            ((slotFrame ip).refl first).setInode rfl
          have same : Moved false first 0 _ _ := here.moved
          rw [firstBooks.idle] at same
          have after := firstBooks.moved same (by rintro ⟨⟩)
          rwa [add_zero] at after
        refine balanced_files (?_ : Books (fun g => handles g + handle (some f) g) dirs _) (by omega) fun g => ?_
        · simp only [State.setFile, State.setInode, update_idem, update_self]
          exact unlocked.opening unused rfl rfl rfl
        · rw [held_update, free, handle_none]
          ring

theorem Books.performs_chdir (inside : 0 < dirs state.cwd) (here : state.cwd = proc.cwd) (path : List Byte) : Yields (do
      let result ← sys_chdir path
      let state ← visible
      pure { result := result, caller := some { proc with cwd := state.cwd } : Outcome }) state
      (Balanced handles dirs state proc) := by
  -- a refusal leaves the process where it is
  have refuse : ∀ last : State, Moved true state 0 false last → Yields (do
        let state ← visible
        pure { result := -1, caller := some { proc with cwd := state.cwd } : Outcome }) last
        (Balanced handles dirs state proc) := by
    intro last moved
    have lastBooks := books.moved moved fun _ => inside
    rw [add_zero] at lastBooks
    refine Wp.see (Wp.pure ?_)
    rw [moved.cwd, here]
    exact balanced_same lastBooks fun _ => moved.unmoved
  refine Wp.bind (Wp.seq (moves_namei path state).yields fun found first looked => ?_)
  rw [books.idle] at looked
  cases found with
  | none => exact Wp.pure (refuse first looked)
  | some ip =>
    refine Wp.seq (touches_ilock first).yields fun _ second confined => ?_
    have locked := looked.trans confined.moved
    rw [add_zero, looked.logging] at locked
    refine Wp.peek (Wp.ite (fun _ => ?_) fun _ => ?_)
    · refine Wp.seq (books.moved locked fun _ => inside).drop fun _ third done =>
        Wp.pure (refuse third ?_)
      have total := locked.trans done.2
      rwa [foundInode, add_neg_cancel] at total
    · refine Wp.seq (touches_iunlock second).yields fun _ third unlocked => ?_
      have kept := locked.trans unlocked.moved
      rw [add_zero, locked.logging] at kept
      refine Wp.see ?_
      rw [kept.cwd, here]
      have drops : Shifts (fun _ => -one proc.cwd) (iput proc.cwd) := shifts_iput
      refine Wp.seq (drops third).yields fun _ fourth dropped => ?_
      have moved := kept.trans dropped
      rw [kept.logging] at moved
      have total := books.moved moved fun _ => inside
      refine Wp.set (Wp.pure (Wp.see (Wp.pure ⟨?_, by rintro ⟨⟩⟩)))
      have moved : Books handles _ { fourth with cwd := ip } :=
        { total with }
      refine moved.reckon (fun f => ?_) fun slot => ?_
      · simp only [held]
        ring
      · simp only [Pi.add_apply, Pi.neg_apply, foundInode, inDirectory]
        ring

/-! ## Processes -/

theorem Books.duplicates (ofile : Ofile) (fds : List (Fin NOFILE)) : Yields (dupFiles ofile fds) state fun _ next =>
      Books (fun f => handles f + (fds.map fun fd => handle (ofile fd) f).sum) dirs next ∧ next.cwd = state.cwd := by
  induction fds generalizing handles state with
  | nil =>
    refine Wp.pure ⟨?_, rfl⟩
    simp only [List.map_nil, List.sum_nil, add_zero]
    exact books
  | cons fd rest ih =>
    simp only [List.map_cons, List.sum_cons, ← add_assoc]
    cases present : ofile fd with
    | none =>
      simp only [dupFiles, present, handle_none, add_zero]
      exact Wp.bind (Wp.pure (ih books))
    | some f =>
      simp only [dupFiles, present]
      refine Wp.seq (books.duplicate f) fun _ next both => ?_
      exact (ih both.1).post fun _ last done => ⟨done.1, done.2.trans both.2⟩

theorem Books.releases (ofile : Ofile) (fds : List (Fin NOFILE)) : Yields (closeFiles ofile fds) state fun _ next =>
      Books (fun f => handles f - (fds.map fun fd => handle (ofile fd) f).sum) dirs next ∧ next.cwd = state.cwd := by
  induction fds generalizing handles state with
  | nil =>
    refine Wp.pure ⟨?_, rfl⟩
    simp only [List.map_nil, List.sum_nil, sub_zero]
    exact books
  | cons fd rest ih =>
    simp only [List.map_cons, List.sum_cons, ← sub_sub]
    cases present : ofile fd with
    | none =>
      simp only [closeFiles, present, handle_none, sub_zero]
      exact Wp.bind (Wp.pure (ih books))
    | some f =>
      simp only [closeFiles, present]
      refine Wp.seq (books.release f) fun _ next both => ?_
      exact (ih both.1).post fun _ last done => ⟨done.1, done.2.trans both.2⟩

end

private theorem held_list (f : Fin NFILE) (proc : Proc) :
    ((List.finRange NOFILE).map fun fd => handle (proc.ofile fd) f).sum = held f (some proc) :=
  (Fin.sum_univ_def fun fd => handle (proc.ofile fd) f).symm

theorem Books.performs_fork (books : Books handles dirs state) (inside : 0 < dirs state.cwd) (child : Fin NPROC) :
    Yields (do
      let cwd ← fork proc.ofile
      pure { result := child.val, caller := some proc, child := some { proc with cwd := cwd } : Outcome }) state
      (Balanced handles dirs state proc) := by
  refine Wp.bind (Wp.seq (books.duplicates proc.ofile _) fun _ next both => ?_)
  obtain ⟨nextBooks, cwd⟩ := both
  have rooted : 0 < (next.icache next.cwd).ref := nextBooks.rooted (cwd ▸ inside)
  refine Wp.see (Wp.set (Wp.pure (Wp.pure ⟨?_, fun minus => ?_⟩)))
  · have taken : Moved false next (one next.cwd) next.log.busy (next.setInode next.cwd
        { next.icache next.cwd with ref := (next.icache next.cwd).ref + 1 }) :=
      moved_recount rfl rfl fun _ _ => rooted
    rw [nextBooks.idle] at taken
    have total := nextBooks.moved taken nofun
    refine total.reckon (fun f => ?_) fun slot => ?_
    · have same : held f (some { proc with cwd := next.cwd }) = held f (some proc) := rfl
      rw [held_list, same]
      ring
    · simp only [Pi.add_apply, inDirectory]
      ring
  · exact absurd minus (by simp only; omega)

theorem Books.performs_exit (books : Books handles dirs state) (here : state.cwd = proc.cwd) (first : Bool) :
    Yields (do
      exit first proc.ofile
      pure { result := 0, caller := none : Outcome }) state
      (Balanced handles dirs state proc) := by
  cases first with
  | true => exact Wp.bind (Wp.throw trivial)
  | false =>
    refine Wp.bind (Wp.seq (books.releases proc.ofile _) fun _ next both => ?_)
    obtain ⟨nextBooks, cwd⟩ := both
    refine Wp.see ?_
    rw [cwd, here]
    have drops : Shifts (fun _ => -one proc.cwd) (iput proc.cwd) := shifts_iput
    refine (drops next).yields.post fun _ last dropped => ?_
    rw [nextBooks.idle] at dropped
    have total := nextBooks.moved dropped nofun
    refine Wp.pure ⟨total.reckon (fun f => ?_) fun slot => ?_, nofun⟩
    · rw [held_list]
      simp only [held]
      ring
    · simp only [Pi.add_apply, Pi.neg_apply, inDirectory]
      ring

def Call.Counted : Call → Prop
  | .write _ _ _ => False
  | .dedup => False
  | _ => True

theorem perform_balanced (first : Bool) {call : Call} (counted : call.Counted)
    (books : Books handles dirs { state with cwd := proc.cwd }) (inside : 0 < dirs proc.cwd)
    (free : ∀ fetched p, call = .pipe fetched (some p) → state.pipes p = none) :
    Yields (perform first proc call) state fun outcome next =>
      Balanced handles dirs { state with cwd := proc.cwd } proc outcome next := by
  refine Wp.set ?_
  cases call with
  | write fd p n | dedup => exact counted.elim
  | dup fd => exact books.performs_dup fd
  | close fd => exact books.performs_close fd
  | link old new =>
    exact books.simply inside (sys_link_moved books.idle old new)
  | unlink path =>
    exact books.simply inside (sys_unlink_moved books.idle path)
  | openFile path omode => exact books.performs_open inside path omode
  | mkdir path | mknod path major minor => exact books.simply inside (makeNode_wp path _ _ _).yields
  | chdir path => exact books.performs_chdir inside rfl path
  | exec path memory =>
    have moves := (exec_moves path memory { state with cwd := proc.cwd }).yields
    rw [books.idle] at moves
    exact books.simply inside moves
  | fork child =>
    cases child with
    | none => exact Wp.pure (balanced_same books fun _ => Unmoved.refl _)
    | some child => exact books.performs_fork inside child
  | exit => exact books.performs_exit rfl first
  | pipe fetched page =>
    exact books.performs_pipe fetched fun p given => free fetched p (by rw [given])

end Calls

/-! ## Whole runs -/

def Machine.Books (machine : Machine) : Prop :=
  Xv6Dedup.Books (fun f => ∑ pid, held f (machine.procs pid))
    (fun slot => ∑ pid, inDirectory slot (machine.procs pid)) machine.kernel

structure Referenced (machine : Machine) : Prop where
  files : ∀ f, (machine.kernel.ftable f).ref = ∑ pid, held f (machine.procs pid)
  free : ∀ f, (machine.kernel.ftable f).ref = 0 → (machine.kernel.ftable f).type = .none
  inodes : ∀ slot, (machine.kernel.icache slot).ref =
    ∑ f, (machine.kernel.ftable f).on slot + ∑ pid, inDirectory slot (machine.procs pid)
  distinct : machine.kernel.Distinct
  pipes : ∀ p, (machine.kernel.pipes p).isSome = true ↔
    ∃ f, (machine.kernel.ftable f).type = .pipe ∧ (machine.kernel.ftable f).pipe = p ∧
      0 < (machine.kernel.ftable f).ref

section Runs

variable {machine after : Machine} {pid : Fin NPROC} {call : Call}

theorem PipesOk.held {files : Fin NFILE → File} {pipes : Nat → Option Pipe} (ok : PipesOk files pipes) (p : Nat) :
    (pipes p).isSome = true ↔ ∃ f, (files f).type = .pipe ∧ (files f).pipe = p := by
  refine ⟨fun present => ?_, fun ⟨f, type, page⟩ => ?_⟩
  · obtain ⟨pipe, found⟩ := Option.isSome_iff_exists.mp present
    have opened := fun writable => (ok.ends p writable).mp
    simp only [found, endOpen] at opened
    rcases ok.kept p pipe found with reading | writing
    · obtain ⟨f, isEnd⟩ := opened false reading
      exact ⟨f, isEnd.1, isEnd.2.1⟩
    · obtain ⟨f, isEnd⟩ := opened true writing
      exact ⟨f, isEnd.1, isEnd.2.1⟩
  · have opened := (ok.ends p (files f).writable).mpr ⟨f, type, page, rfl⟩
    cases found : pipes p with
    | none =>
      rw [found] at opened
      cases opened
    | some pipe => rfl

theorem held_nonneg (f : Fin NFILE) (entry : Option Proc) : 0 ≤ held f entry := by
  cases entry with
  | none => exact le_refl _
  | some proc =>
    refine Finset.sum_nonneg fun fd _ => ?_
    unfold handle
    split <;> decide

theorem Machine.Books.referenced (books : machine.Books) : Referenced machine where
  files := books.handles
  free := books.closed
  inodes slot := by
    have balance := books.balance slot
    unfold State.balance at balance
    omega
  distinct := books.distinct
  pipes p := by
    rw [books.pipes.held p]
    refine exists_congr fun f => ⟨fun ⟨type, page⟩ => ⟨type, page, ?_⟩, fun both => ⟨both.1, both.2.1⟩⟩
    have lower : 0 ≤ (machine.kernel.ftable f).ref := by
      rw [books.handles f]
      exact Finset.sum_nonneg fun pid _ => held_nonneg f (machine.procs pid)
    refine lt_of_le_of_ne lower fun zero => ?_
    rw [books.closed f zero.symm] at type
    cases type

private theorem inDirectory_pos {proc : Proc} (active : machine.procs pid = some proc) :
    0 < ∑ pid, inDirectory proc.cwd (machine.procs pid) := by
  have single : inDirectory proc.cwd (machine.procs pid) ≤ ∑ pid, inDirectory proc.cwd (machine.procs pid) :=
    Finset.single_le_sum (fun pid _ => inDirectory_nonneg proc.cwd (machine.procs pid)) (Finset.mem_univ pid)
  rw [active, inDirectory, one_self] at single
  omega

theorem Machine.Books.balanced (books : machine.Books) (counted : call.Counted) {proc : Proc}
    {memo : Memo} {outcome : Outcome} {next : State × Memo} (active : machine.procs pid = some proc)
    (enabled : machine.Enabled call)
    (ran : perform (decide (pid = initproc)) proc call (machine.kernel, memo) = .ok outcome next) :
    Balanced (fun f => ∑ pid, held f (machine.procs pid)) (fun slot => ∑ pid, inDirectory slot (machine.procs pid))
      { machine.kernel with cwd := proc.cwd } proc outcome next.1 := by
  have entered : Xv6Dedup.Books (fun f => ∑ pid, held f (machine.procs pid))
      (fun slot => ∑ pid, inDirectory slot (machine.procs pid))
      { machine.kernel with cwd := proc.cwd } :=
    { books with }
  exact ((perform_balanced _ counted entered (inDirectory_pos active) (page_free enabled)).returned trivial ran).1

theorem Machine.Books.step (books : machine.Books) (counted : call.Counted)
    (step : machine.Step pid call after) : after.Books := by
  obtain ⟨proc, memo, outcome, next, active, enabled, _, ran, rfl⟩ := step
  have kept := (books.balanced counted active enabled ran).books
  have childless := fun single =>
    ((perform_childless (decide (pid = initproc)) proc single machine.kernel).returned trivial ran).1
  refine ⟨kept.idle, fun f => ?_, kept.closed, fun slot => ?_, kept.distinct, kept.pipes⟩
  · rw [settle_sum (held f) rfl active enabled childless]
    exact kept.handles f
  · rw [settle_sum (inDirectory slot) rfl active enabled childless]
    exact kept.balance slot

theorem Machine.books_boot (drivers : Drivers) (disk : Blocks) : (boot drivers disk).Books where
  idle := rfl
  handles f := by
    have alone := sum_update (held f) (fun _ : Fin NPROC => none) initproc (some { cwd := 0, ofile := fun _ => none })
    refine Eq.trans ?_ alone.symm
    simp [held, handle, Machine.boot, mounted, rebooted]
  closed := (accounted_boot drivers disk).closed
  balance := (accounted_boot drivers disk).balance
  distinct := by
    intro first second firstUsed secondUsed _
    have only : ∀ slot, 0 < ((boot drivers disk).kernel.icache slot).ref → slot = 0 := by
      intro slot used
      by_contra other
      simp [Machine.boot, update_of_ne other] at used
    rw [only first firstUsed, only second secondUsed]
  pipes := by
    refine ⟨fun p writable => ?_, by rintro _ _ ⟨⟩, fun f g p writable isEnd => ?_⟩
    · refine iff_of_false (by rintro ⟨⟩) ?_
      rintro ⟨f, isEnd⟩
      exact not_isEnd rfl isEnd
    · exact absurd isEnd (not_isEnd rfl)

def CountedStep (machine after : Machine) : Prop :=
  ∃ pid call, call.Counted ∧ machine.Step pid call after

theorem Machine.Books.run (books : machine.Books)
    (run : Relation.ReflTransGen CountedStep machine after) : after.Books := by
  induction run with
  | refl => exact books
  | tail _ step ih =>
    obtain ⟨pid, call, counted, returned⟩ := step
    exact ih.step counted returned

end Runs

/-- Between calls the counts are the numbers of references, and a call that
returns -1 leaves them as they were. -/
theorem references_match {drivers : Drivers} {disk : Blocks} {machine : Machine}
    (run : Relation.ReflTransGen CountedStep (.boot drivers disk) machine) :
    Referenced machine ∧ ∀ pid proc call memo outcome next, machine.procs pid = some proc →
      machine.Enabled call → call.Counted →
      perform (decide (pid = initproc)) proc call (machine.kernel, memo) = .ok outcome next →
      outcome.result = -1 → Unmoved machine.kernel next.1 ∧ machine.settle pid call outcome = machine.procs := by
  have books := (Machine.books_boot drivers disk).run run
  refine ⟨books.referenced, ?_⟩
  intro pid proc call memo outcome next active enabled counted ran minus
  have balanced := books.balanced counted active enabled ran
  obtain ⟨caller, child, unmoved⟩ := balanced.failed minus
  refine ⟨⟨unmoved.files, unmoved.inodes, unmoved.pipes⟩, ?_⟩
  have same : update machine.procs pid outcome.caller = machine.procs := by
    rw [caller, ← active, update_eq_self]
  cases call with
  | fork other =>
    cases other with
    | none => exact same
    | some other =>
      have unused : machine.procs other = none := enabled
      show update (update machine.procs pid outcome.caller) other outcome.child = machine.procs
      rw [same, child, ← unused, update_eq_self]
  | _ => exact same

theorem references_match_pipe : ∃ machine,
    (Machine.boot {} Mkfs.bareDisk).next initproc (.pipe true (some 7)) = some machine ∧ Referenced machine := by
  have returns : ((Machine.boot {} Mkfs.bareDisk).next initproc
      (.pipe true (some 7))).isSome = true := by decide +kernel
  obtain ⟨machine, ran⟩ := Option.isSome_iff_exists.mp returns
  have step : CountedStep (.boot {} Mkfs.bareDisk) machine :=
    ⟨initproc, .pipe true (some 7), trivial, Machine.step_of_next ran⟩
  exact ⟨machine, ran, (references_match (.single step)).1⟩

end Xv6Dedup
