import Xv6Dedup.Tree.Effects

/-!
# How long inodes live

The calls on files and processes move references. Over every run an inode stays
allocated with its contents while an open file or a working directory refers to
it, and an inode without links is kept for no other reason.
-/

set_option autoImplicit false

namespace Xv6Dedup.Tree

open Function Program

variable {file : OpenFile}

section Users

variable {fs next : Fs} {anchors others : List Nat} {i : Nat} {signs : Signs}

theorem users_setFile (fs : Fs) (f : Fin NFILE) (file : Option OpenFile) (j : Nat) :
    (fs.setFile f file).users j + (if (fs.files f).map (·.inum) = some j then 1 else 0) =
      fs.users j + if file.map (·.inum) = some j then 1 else 0 := by
  have moved : (fun g => ((fs.setFile f file).files g).map (·.inum)) =
      update (fun g => (fs.files g).map (·.inum)) f (file.map (·.inum)) :=
    funext fun g => apply_update (fun _ file => file.map (·.inum)) fs.files f file g
  have balance := Sharing.users_balance (fun g => (fs.files g).map (·.inum)) (Finset.mem_univ f)
    (file.map (·.inum)) (some j)
  rw [← moved] at balance
  have procs : (fs.setFile f file).procs = fs.procs := rfl
  unfold Fs.users
  rw [procs]
  omega

theorem users_setProc (fs : Fs) (pid : Fin NPROC) (proc : Option Proc) (j : Nat) :
    (fs.setProc pid proc).users j + (if (fs.procs pid).map (·.cwd) = some j then 1 else 0) =
      fs.users j + if proc.map (·.cwd) = some j then 1 else 0 := by
  have moved : (fun p => ((fs.setProc pid proc).procs p).map (·.cwd)) =
      update (fun p => (fs.procs p).map (·.cwd)) pid (proc.map (·.cwd)) :=
    funext fun p => apply_update (fun _ proc => proc.map (·.cwd)) fs.procs pid proc p
  have balance := Sharing.users_balance (fun p => (fs.procs p).map (·.cwd)) (Finset.mem_univ pid)
    (proc.map (·.cwd)) (some j)
  rw [← moved] at balance
  have files : (fs.setProc pid proc).files = fs.files := rfl
  unfold Fs.users
  rw [files]
  omega

theorem users_of_file {f : Fin NFILE} (opened : fs.files f = some file) : 0 < fs.users file.inum :=
  Nat.add_pos_left (Sharing.users_pos_iff.mpr ⟨f, Finset.mem_univ f, by rw [opened]; rfl⟩) _

theorem users_of_proc {pid : Fin NPROC} {proc : Proc} (runs : fs.procs pid = some proc) : 0 < fs.users proc.cwd :=
  Nat.add_pos_right _ (Sharing.users_pos_iff.mpr ⟨pid, Finset.mem_univ pid, by rw [runs]; rfl⟩)

theorem users_setFile_same {f : Fin NFILE} (file : Option OpenFile)
    (same : file.map (·.inum) = (fs.files f).map (·.inum)) : (fs.setFile f file).users = fs.users := by
  funext j
  have balance := users_setFile fs f file j
  rw [same] at balance
  omega

theorem users_setProc_same {pid : Fin NPROC} (proc : Option Proc)
    (same : proc.map (·.cwd) = (fs.procs pid).map (·.cwd)) : (fs.setProc pid proc).users = fs.users := by
  funext j
  have balance := users_setProc fs pid proc j
  rw [same] at balance
  omega

theorem Held.transfer (held : Held anchors [] fs) (nodes : next.nodes = fs.nodes)
    (ref : next.ref = fs.ref) (valid : next.valid = fs.valid)
    (total : ∀ j, others.count j + next.users j = anchors.count j + fs.users j)
    (typed : ∀ j ∈ anchors, (fs.nodes j).type ≠ 0) : Held others [] next := by
  constructor
  · intro j
    have before := held.refs j
    have moved := total j
    rw [ref]
    omega
  · intro j used
    rw [nodes]
    have moved := total j
    by_cases member : j ∈ anchors
    · exact typed j member
    · rw [List.count_eq_zero_of_not_mem member] at moved
      exact held.typed j (by omega)
  · intro j sure positive
    rw [nodes]
    exact held.sure j (valid ▸ sure) (ref ▸ positive)
  · intro j allocated unlinked
    rw [nodes] at allocated unlinked
    obtain ⟨sure, positive⟩ := held.kept j allocated unlinked
    have moved := total j
    exact ⟨valid ▸ sure, by omega⟩

theorem Held.sameUsers (held : Held anchors [] fs) (nodes : next.nodes = fs.nodes)
    (ref : next.ref = fs.ref) (valid : next.valid = fs.valid) (users : next.users = fs.users) :
    Held anchors [] next := by
  refine ⟨fun j => ?_, fun j => ?_, fun j => ?_, fun j => ?_⟩
  · rw [ref, users]
    exact held.refs j
  · rw [nodes, users]
    exact held.typed j
  · rw [nodes, ref, valid]
    exact held.sure j
  · rw [nodes, valid, users]
    exact held.kept j

end Users

section Calls

variable {fs next : Fs} {i : Nat} {signs : Signs} {pid : Fin NPROC} {Parent : Nat → Prop}

theorem procAt_gives {α : Type} {rest : Proc → TreeM α} {Post : α → Fs → Prop}
    (gives : ∀ proc, fs.procs pid = some proc → Gives signs (rest proc) fs Post) :
    Gives signs (procAt pid >>= rest) fs Post := by
  refine Wp.bind (Wp.see ?_)
  cases runs : fs.procs pid with
  | none => exact Wp.throw ⟨nofun, nofun, nofun⟩
  | some proc => exact Wp.pure (gives proc runs)

variable {f : Fin NFILE} {path : List Byte} {proc : Proc} {call : Call}

theorem fileAt_gives : Gives signs (fileAt f) fs fun file next => next = fs ∧ fs.files f = some file := by
  refine Wp.see ?_
  cases opened : fs.files f with
  | none => exact Wp.throw (otherPanic (by decide))
  | some file => exact Wp.pure ⟨rfl, rfl⟩

/-- The references of the call are its own, and the inodes as before. -/
structure Moves (fs next : Fs) : Prop where
  held : Held [] [] next
  nodes : next.nodes = fs.nodes
  procs : next.procs = fs.procs
  users : next.users = fs.users

theorem filedup_gives (held : Held [] [] fs) : Gives signs (filedup f) fs fun _ => Moves fs := by
  refine Wp.seq fileAt_gives fun file same read => ?_
  obtain ⟨rfl, opened⟩ := read
  refine Wp.change ?_
  have users := users_setFile_same (some { file with ref := file.ref + 1 }) (by rw [opened]; rfl)
  exact ⟨held.sameUsers rfl rfl rfl users, rfl, rfl, users⟩

structure Drops (fs next : Fs) : Prop where
  held : Held [] [] next
  swept : Sweeps next.users fs.nodes next.nodes
  procs : next.procs = fs.procs
  fewer : ∀ j, next.users j ≤ fs.users j

theorem Sweeps.fewer {users later : Nat → Nat} {nodes after : Nat → Node}
    (swept : Sweeps users nodes after) (fewer : ∀ j, later j ≤ users j) : Sweeps later nodes after := by
  intro j
  cases swept j with
  | inl same => exact .inl same
  | inr freed => exact .inr ⟨freed.1, freed.2.1, Nat.eq_zero_of_le_zero (freed.2.2 ▸ fewer j)⟩

theorem Drops.trans {middle : Fs} (first : Drops fs middle) (second : Drops middle next) : Drops fs next :=
  { held := second.held
    swept := (first.swept.fewer second.fewer).trans second.swept
    procs := second.procs.trans first.procs
    fewer := fun j => (second.fewer j).trans (first.fewer j) }

theorem Moves.drops (moves : Moves fs next) : Drops fs next :=
  ⟨moves.held, .of_eq moves.nodes, moves.procs, fun j => Nat.le_of_eq (congrFun moves.users j)⟩

theorem Drops.refl (held : Held [] [] fs) : Drops fs fs :=
  ⟨held, .of_eq rfl, rfl, fun _ => Nat.le_refl _⟩

theorem iput_drops {before : Fs} (held : Held [i] [] fs) (nodes : fs.nodes = before.nodes)
    (procs : fs.procs = before.procs) (fewer : ∀ j, fs.users j ≤ before.users j) :
    Gives signs (iput i) fs fun _ => Drops before := by
  refine (iput_anchor held).post fun _ next put => ?_
  obtain ⟨nextHeld, same, reclaimed, _⟩ := put
  refine ⟨nextHeld, ?_, same.procs.trans procs, fun j => ?_⟩
  · rw [same.users, ← nodes]
    exact reclaimed.sweeps
  · rw [same.users]
    exact fewer j

theorem fileclose_gives (held : Held [] [] fs) : Gives signs (fileclose f) fs fun _ => Drops fs := by
  refine Wp.seq fileAt_gives fun file same read => ?_
  obtain ⟨rfl, opened⟩ := read
  refine Wp.ite (fun _ => Wp.change ?_) fun _ => Wp.set ?_
  · have users := users_setFile_same (some { file with ref := file.ref - 1 }) (by rw [opened]; rfl)
    exact Moves.drops ⟨held.sameUsers rfl rfl rfl users, rfl, rfl, users⟩
  · have balance (j : Nat) := users_setFile same f none j
    have total (j : Nat) : [file.inum].count j + (same.setFile f none).users j = [].count j + same.users j := by
      have moved := balance j
      rw [opened] at moved
      simp only [Option.map_some, Option.map_none, Option.some.injEq, reduceCtorEq, if_false,
        List.count_singleton, beq_iff_eq, List.count_nil] at moved ⊢
      split at moved
      · rename_i isFile
        rw [if_pos isFile]
        omega
      · rename_i other
        rw [if_neg other]
        omega
    refine iput_drops (held.transfer rfl rfl rfl total nofun) rfl rfl fun j => ?_
    have moved := total j
    rw [List.count_nil] at moved
    omega

variable {fd : Fin NOFILE}

theorem sys_dup_gives (held : Held [] [] fs) : Gives signs (sys_dup pid fd) fs fun _ => Outcome [] fs Parent := by
  refine procAt_gives fun proc runs => ?_
  have failed : Gives signs (pure (-1) : TreeM Int) fs fun _ => Outcome [] fs Parent :=
    Wp.pure (.passed held rfl)
  cases opened : proc.ofile fd with
  | none => exact failed
  | some f =>
    cases free : proc.freeFd with
    | none => exact failed
    | some copy =>
      refine Wp.set ?_
      have users := users_setProc_same (some (proc.setFd copy (some f))) (by rw [runs]; rfl)
      refine Wp.seq (filedup_gives (held.sameUsers rfl rfl rfl users)) fun _ last moved => ?_
      exact Wp.pure (.passed moved.held moved.nodes)

theorem sys_close_gives (held : Held [] [] fs) : Gives signs (sys_close pid fd) fs fun _ => Outcome [] fs Parent := by
  refine procAt_gives fun proc runs => ?_
  cases opened : proc.ofile fd with
  | none => exact Wp.pure (.passed held rfl)
  | some f =>
    refine Wp.set ?_
    have users := users_setProc_same (some (proc.setFd fd none)) (by rw [runs]; rfl)
    refine Wp.seq (fileclose_gives (held.sameUsers rfl rfl rfl users)) fun _ last dropped => ?_
    exact Wp.pure ⟨dropped.held, _, .same, dropped.swept⟩

structure Written (fs next : Fs) : Prop where
  held : Held [] [] next
  users : next.users = fs.users
  nodes : ∃ i data, 0 < fs.users i ∧
    next.nodes = update fs.nodes i { fs.nodes i with data := data }

theorem sys_write_gives {data : List Byte} {Parent : Int → Nat → Prop} (held : Held [] [] fs) :
    Gives signs (sys_write pid fd data) fs fun result next => Outcome [] fs (Parent result) next ∨ Written fs next := by
  refine procAt_gives fun proc runs => ?_
  cases opened : proc.ofile fd with
  | none => exact Wp.pure (.inl (.passed held rfl))
  | some f =>
    refine Wp.seq fileAt_gives fun file fs read => ?_
    obtain ⟨rfl, opened⟩ := read
    refine Wp.ite (fun _ => Wp.pure (.inl (.passed held rfl))) fun _ =>
      Wp.set (Wp.pure (.inr ?_))
    exact ⟨held.rewrite rfl rfl, rfl, file.inum, data, users_of_file opened, rfl⟩

theorem openInode_gives {cwd omode : Nat} (held : Held [] [] fs) (used : 0 < fs.users cwd) :
    Gives (Search fs.nodes cwd path) (openInode cwd path omode) fs fun made next =>
      SameUsers fs next ∧ (∀ ip ∈ made, (next.nodes ip).type ≠ 0) ∧ Outcome made.toList fs
        (fun dp => made ≠ none ∧ Seen fs.nodes (origin cwd path) dp) next := by
  refine Wp.ite (fun _ => create_gives held used (by decide)) fun _ => ?_
  refine Wp.seq (namei_held held used) fun found middle lookup => ?_
  cases found with
  | none =>
    exact Wp.pure ⟨lookup.toSameUsers, fun _ same => (nomatch same), .passed lookup.held lookup.nodes⟩
  | some ip =>
    refine Wp.seq (lookup.ilock id) fun _ locked lock => ?_
    obtain ⟨lockedHeld, lock, passed⟩ := lock
    refine Wp.peek (Wp.ite (fun _ => ?_) fun _ => Wp.pure ?_)
    · refine Wp.seq (iput_walk lockedHeld) fun _ last put => Wp.pure ?_
      have lastPassed := passed.trans put.2.1
      exact ⟨lastPassed.toSameUsers, fun _ same => (nomatch same), .passed put.1 lastPassed.nodes⟩
    · refine ⟨passed.toSameUsers, fun j isFound => ?_, .passed lockedHeld.anchor passed.nodes⟩
      rw [← Option.some.inj isFound]
      exact lock.typed

theorem freeFile_some (picked : fs.freeFile = some f) : fs.files f = none := by
  have free := List.find?_some picked
  exact Option.isNone_iff_eq_none.mp free

theorem users_open {changed : Proc} (free : fs.files f = none) (runs : fs.procs pid = some proc)
    (cwd : changed.cwd = proc.cwd) (j : Nat) :
    ((fs.setFile f (some file)).setProc pid (some changed)).users j = [file.inum].count j + fs.users j := by
  have files := users_setFile fs f (some file) j
  have same : (some changed).map (·.cwd) = ((fs.setFile f (some file)).procs pid).map (·.cwd) :=
    (congrArg some cwd).trans (congrArg (Option.map Proc.cwd) runs.symm)
  rw [users_setProc_same (some changed) same]
  rw [free] at files
  simp only [Option.map_some, Option.map_none, Option.some.injEq, reduceCtorEq, if_false,
    List.count_singleton, beq_iff_eq] at files ⊢
  omega

theorem Outcome.open {middle : Fs} {changed : Proc} (outcome : Outcome [file.inum] fs Parent middle)
    (typed : (middle.nodes file.inum).type ≠ 0) (free : middle.files f = none)
    (runs : middle.procs pid = some proc) (cwd : changed.cwd = proc.cwd) :
    Outcome [] fs Parent ((middle.setFile f (some file)).setProc pid (some changed)) := by
  have users : ∀ j, ((middle.setFile f (some file)).setProc pid (some changed)).users j = _ :=
    users_open free runs cwd
  obtain ⟨edited, edit, swept⟩ := outcome.edits
  refine ⟨outcome.held.transfer rfl rfl rfl (fun j => ?_) fun j member => ?_, edited, edit, ?_⟩
  · rw [users, List.count_nil, Nat.zero_add]
  · exact List.mem_singleton.mp member ▸ typed
  · intro j
    cases swept j with
    | inl same => exact .inl same
    | inr freed =>
      obtain ⟨gone, unlinked, unused⟩ := freed
      have other : j ∉ [file.inum] := by
        intro member
        rw [List.mem_singleton.mp member] at gone
        exact typed (congrArg Node.type gone)
      refine .inr ⟨gone, unlinked, ?_⟩
      rw [users, List.count_eq_zero_of_not_mem other, unused]

abbrev Opens (fs : Fs) (proc : Proc) (path : List Byte) (result : Int) (dp : Nat) : Prop :=
  (result = -1 → fs.freeFile = none ∨ proc.freeFd = none) ∧ Seen fs.nodes (origin proc.cwd path) dp

theorem sys_open_gives {omode : Nat} (held : Held [] [] fs) (runs : fs.procs pid = some proc) :
    Gives (Search fs.nodes proc.cwd path) (sys_open pid path omode) fs fun result => Outcome [] fs (Opens fs proc path result) := by
  refine procAt_gives fun found again => ?_
  obtain rfl := Option.some.inj (runs.symm.trans again)
  refine Wp.seq (openInode_gives held (users_of_proc runs)) fun opened middle result => ?_
  obtain ⟨same, typed, outcome⟩ := result
  cases opened with
  | none => exact Wp.pure (outcome.mono fun _ parent => absurd rfl parent.1)
  | some ip =>
    have middleHeld : Held [ip] [] middle := outcome.held
    refine Wp.see ?_
    have failed (barred : fs.freeFile = none ∨ proc.freeFd = none) :
        Gives (Search fs.nodes proc.cwd path) (do iput ip; pure (-1) : TreeM Int) middle
          fun result => Outcome [] fs (Opens fs proc path result) := by
      refine Wp.seq (iput_anchor middleHeld) fun _ last put => Wp.pure ?_
      exact (outcome.put put.1 put.2.1 put.2.2.1).mono fun _ parent => ⟨fun _ => barred, parent.2⟩
    cases file : middle.freeFile with
    | none =>
      rw [Fs.freeFile, same.files] at file
      exact failed (.inl file)
    | some f =>
      cases slot : proc.freeFd with
      | none => exact failed (.inr slot)
      | some fd =>
        refine Wp.set (Wp.pure ?_)
        have still : middle.procs pid = some proc := same.procs ▸ runs
        have opened : Outcome [ip] fs (Opens fs proc path fd.val) middle :=
          outcome.mono fun _ parent => ⟨fun wrong => absurd wrong (by omega), parent.2⟩
        exact Outcome.open opened (typed ip rfl) (freeFile_some file) still rfl

theorem setProc_put (fs : Fs) (proc : Option Proc) (old : Nat) :
    (fs.put old).setProc pid proc = (fs.setProc pid proc).put old := by
  have condition : ((fs.setProc pid proc).ref old = 1 ∧ (fs.setProc pid proc).valid old = true ∧
      ((fs.setProc pid proc).nodes old).nlink = 0) ↔
    (fs.ref old = 1 ∧ fs.valid old = true ∧ (fs.nodes old).nlink = 0) := Iff.rfl
  unfold Fs.put
  rw [if_congr condition rfl rfl]
  split
  · rfl
  · rfl

theorem sys_chdir_gives (held : Held [] [] fs) (runs : fs.procs pid = some proc) :
    Gives ⟨Strays fs.nodes (origin proc.cwd path), False⟩ (sys_chdir pid path) fs fun _ => Outcome [] fs Parent := by
  refine procAt_gives fun found again => ?_
  obtain rfl := Option.some.inj (runs.symm.trans again)
  refine Wp.seq (namei_held held (users_of_proc runs)) fun found middle lookup => ?_
  cases found with
  | none => exact Wp.pure (.passed lookup.held lookup.nodes)
  | some ip =>
    refine Wp.seq (lookup.ilock id) fun _ locked lock => ?_
    obtain ⟨lockedHeld, lock, passed⟩ := lock
    refine Wp.peek (Wp.ite (fun _ => ?_) fun _ => ?_)
    · refine Wp.seq (iput_walk lockedHeld) fun _ last put => Wp.pure ?_
      exact .passed put.1 (passed.trans put.2.1).nodes
    · refine Wp.seq iput_gives fun _ last put => Wp.set (Wp.pure ?_)
      subst put
      rw [setProc_put]
      have moved (j : Nat) : [proc.cwd].count j + (locked.setProc pid (some { proc with cwd := ip })).users j =
            [ip].count j + locked.users j := by
        have balance := users_setProc locked pid (some { proc with cwd := ip }) j
        rw [passed.procs, runs] at balance
        simp only [Option.map_some, Option.some.injEq, List.count_singleton, beq_iff_eq]
          at balance ⊢
        omega
      have typed (j : Nat) (member : j ∈ [ip]) : (locked.nodes j).type ≠ 0 :=
        List.mem_singleton.mp member ▸ lock.typed
      have changed : Outcome [proc.cwd] fs Parent (locked.setProc pid (some { proc with cwd := ip })) :=
        .passed (lockedHeld.anchor.transfer rfl rfl rfl moved typed) passed.nodes
      obtain ⟨lastHeld, sameUsers, reclaimed⟩ := changed.held.put_anchor
      exact changed.put lastHeld sameUsers reclaimed

theorem dupFiles_gives (fds : List (Fin NOFILE)) (held : Held [] [] fs) :
    Gives signs (dupFiles proc fds) fs fun _ => Moves fs := by
  induction fds generalizing fs with
  | nil => exact Wp.pure ⟨held, rfl, rfl, rfl⟩
  | cons fd rest ih =>
    unfold dupFiles
    cases proc.ofile fd with
    | none => exact ih held
    | some f =>
      refine Wp.seq (filedup_gives held) fun _ middle first => ?_
      refine (ih first.held).post fun _ last second => ?_
      exact ⟨second.held, second.nodes.trans first.nodes, second.procs.trans first.procs,
        second.users.trans first.users⟩

theorem fork_gives {child : Fin NPROC} (held : Held [] [] fs) (unused : fs.procs child = none) :
    Gives signs (fork pid child) fs fun _ => Outcome [] fs Parent := by
  refine procAt_gives fun proc runs => ?_
  refine Wp.seq (dupFiles_gives _ held) fun _ middle moved => ?_
  have used : 0 < middle.users proc.cwd := moved.users ▸ users_of_proc runs
  refine Wp.seq (idup_held moved.held used) fun _ last dup => Wp.set (Wp.pure ?_)
  obtain ⟨lastHeld, passed, _⟩ := dup
  have total (j : Nat) : [].count j + (last.setProc child (some proc)).users j = [proc.cwd].count j + last.users j := by
    have balance := users_setProc last child (some proc) j
    rw [passed.procs, moved.procs, unused] at balance
    simp only [Option.map_some, Option.map_none, Option.some.injEq, reduceCtorEq, if_false,
      List.count_singleton, beq_iff_eq, List.count_nil] at balance ⊢
    omega
  have typed (j : Nat) (member : j ∈ [proc.cwd]) : (last.nodes j).type ≠ 0 := by
    rw [List.mem_singleton.mp member, passed.nodes]
    exact moved.held.typed _ used
  exact .passed (lastHeld.anchor.transfer rfl rfl rfl total typed) (passed.nodes.trans moved.nodes)

theorem closeFiles_gives (fds : List (Fin NOFILE)) (held : Held [] [] fs) :
    Gives signs (closeFiles proc fds) fs fun _ => Drops fs := by
  induction fds generalizing fs with
  | nil => exact Wp.pure (.refl held)
  | cons fd rest ih =>
    unfold closeFiles
    cases proc.ofile fd with
    | none => exact ih held
    | some f =>
      refine Wp.seq (fileclose_gives held) fun _ middle first => ?_
      exact (ih first.held).post fun _ last second => first.trans second

theorem exit_gives (held : Held [] [] fs) : Gives signs (exit pid) fs fun _ => Outcome [] fs Parent := by
  refine procAt_gives fun proc runs => ?_
  refine Wp.ite (fun _ => Wp.throw (otherPanic (by decide))) fun _ => ?_
  refine Wp.seq (closeFiles_gives _ held) fun _ middle closed => ?_
  refine Wp.seq iput_gives fun _ last put => Wp.set (Wp.pure ?_)
  subst put
  rw [setProc_put]
  have total (j : Nat) : [proc.cwd].count j + (middle.setProc pid none).users j = [].count j + middle.users j := by
    have balance := users_setProc middle pid none j
    rw [closed.procs, runs] at balance
    simp only [Option.map_some, Option.map_none, Option.some.injEq, reduceCtorEq, if_false,
      List.count_singleton, beq_iff_eq, List.count_nil] at balance ⊢
    omega
  have left : Held [proc.cwd] [] (middle.setProc pid none) :=
    closed.held.transfer rfl rfl rfl total nofun
  have fewer (j : Nat) : (middle.setProc pid none).users j ≤ middle.users j := by
    have moved := total j
    rw [List.count_nil] at moved
    omega
  have outcome : Outcome [proc.cwd] fs Parent (middle.setProc pid none) :=
    ⟨left, fs.nodes, .same, closed.swept.fewer fewer⟩
  obtain ⟨lastHeld, sameUsers, reclaimed⟩ := left.put_anchor
  exact outcome.put lastHeld sameUsers reclaimed

def Call.paths : Call → List (List Byte)
  | .link old new => [old, new]
  | .unlink path | .mkdir path | .mknod path | .open path _ | .chdir path => [path]
  | .dup _ | .close _ | .write _ _ | .read | .fork _ | .exit => []

def Call.targets : Call → List (List Byte)
  | .link _ new => [new]
  | .unlink path | .mkdir path | .mknod path | .open path _ => [path]
  | .chdir _ | .dup _ | .close _ | .write _ _ | .read | .fork _ | .exit => []

/-- The inodes that a lookup of the path by a process may come to. -/
def Fs.Looks (fs : Fs) (pid : Fin NPROC) (path : List Byte) (i : Nat) : Prop :=
  ∃ proc, fs.procs pid = some proc ∧ Seen fs.nodes (origin proc.cwd path) i

def Fs.Astray (fs : Fs) (pid : Fin NPROC) (call : Call) : Prop :=
  ∃ path ∈ call.paths, ∃ i, fs.Looks pid path i ∧ (fs.nodes i).type = 0

def Fs.Target (fs : Fs) (pid : Fin NPROC) (call : Call) (dp : Nat) : Prop :=
  ∃ path ∈ call.targets, fs.Looks pid path dp

/-- What a panic of a call tells. -/
abbrev Fs.Tells (fs : Fs) (pid : Fin NPROC) (call : Call) : Signs where
  lost := fs.Astray pid call
  full := ∃ path ∈ call.targets, ∃ proc, fs.procs pid = some proc ∧ (Search fs.nodes proc.cwd path).full

/-- The call is `open`, and no file structure or descriptor is free for it. -/
def Fs.Barred (fs : Fs) (pid : Fin NPROC) (call : Call) : Prop :=
  ∃ path omode proc, call = .open path omode ∧ fs.procs pid = some proc ∧ (fs.freeFile = none ∨ proc.freeFd = none)

/-- The directories that the call may have changed when it ends with the result. -/
def Fs.Site (fs : Fs) (pid : Fin NPROC) (call : Call) (result : Int) (dp : Nat) : Prop :=
  (result = -1 → fs.Barred pid call) ∧ fs.Target pid call dp

theorem Gives.onPath {program : TreeM Int} {Failed : Prop} (runs : fs.procs pid = some proc)
    (looked : path ∈ call.paths) (target : path ∈ call.targets) (failed : Failed → fs.Barred pid call)
    (gives : Gives (Search fs.nodes proc.cwd path) program fs fun result next => Outcome [] fs (fun dp => (result = -1 → Failed) ∧ Seen fs.nodes (origin proc.cwd path) dp) next) :
    Gives (fs.Tells pid call) program fs fun result => Outcome [] fs (fs.Site pid call result) := by
  refine Wp.post (gives.widen (fun strays => ?_) fun full => ?_) fun _ next outcome =>
    outcome.mono fun dp parent => ?_
  · obtain ⟨i, seen, free⟩ := strays
    exact ⟨path, looked, i, ⟨proc, runs, seen⟩, free⟩
  · exact ⟨path, target, proc, runs, full⟩
  · exact ⟨fun same => failed (parent.1 same), path, target, proc, runs, parent.2⟩

theorem withCwd_gives {body : Nat → TreeM Int} (looked : path ∈ call.paths) (target : path ∈ call.targets)
    (gives : ∀ cwd, 0 < fs.users cwd → Gives (Search fs.nodes cwd path) (body cwd) fs fun result next => Outcome [] fs (fun dp => result ≠ -1 ∧ Seen fs.nodes (origin cwd path) dp) next) :
    Gives (fs.Tells pid call) (withCwd pid body) fs fun result => Outcome [] fs (fs.Site pid call result) := by
  refine procAt_gives fun proc runs => ?_
  exact Gives.onPath runs looked target False.elim (gives proc.cwd (users_of_proc runs))

theorem perform_gives (held : Held [] [] fs) (short : ∀ i, (fs.nodes i).nlink < 2 ^ 16)
    (unused : ∀ child, call = .fork child → fs.procs child = none) :
    Gives (fs.Tells pid call) (perform pid call) fs fun result next =>
      Outcome [] fs (fs.Site pid call result) next ∨ (∃ fd data, call = .write fd data) ∧ Written fs next := by
  have quiet {program : TreeM Int} (gives : Gives (fs.Tells pid call) program fs fun _ next =>
      Outcome [] fs (fun _ => False) next) : Gives (fs.Tells pid call) program fs
      fun result next => Outcome [] fs (fs.Site pid call result) next ∨
        (∃ fd data, call = .write fd data) ∧ Written fs next :=
    gives.post fun _ _ outcome => .inl (outcome.mono nofun)
  cases call with
  | link old new =>
    refine procAt_gives fun proc runs => ?_
    refine ((sys_link_gives held (users_of_proc runs) short).widen (fun strays => ?_)
      fun full => ?_).post fun _ next outcome => .inl (outcome.mono fun dp parent => ?_)
    · rcases strays with ⟨i, seen, free⟩ | ⟨i, seen, free⟩
      · exact ⟨old, by simp [Call.paths], i, ⟨proc, runs, seen⟩, free⟩
      · exact ⟨new, by simp [Call.paths], i, ⟨proc, runs, seen⟩, free⟩
    · exact ⟨new, by simp [Call.targets], proc, runs, full⟩
    · exact ⟨fun same => absurd same parent.1, new, by simp [Call.targets], proc, runs, parent.2⟩
  | unlink path =>
    exact (withCwd_gives (by simp [Call.paths]) (by simp [Call.targets])
      fun cwd used => sys_unlink_gives held used).post fun _ _ => .inl
  | mkdir path | mknod path =>
    exact (withCwd_gives (by simp [Call.paths]) (by simp [Call.targets])
      fun cwd used => makeNode_gives held used (by decide)).post fun _ _ => .inl
  | «open» path omode =>
    cases runs : fs.procs pid with
    | none => exact procAt_gives fun proc again => absurd (runs.symm.trans again) nofun
    | some proc =>
      exact (Gives.onPath runs (by simp [Call.paths]) (by simp [Call.targets])
        (fun failed => ⟨path, omode, proc, rfl, runs, failed⟩) (sys_open_gives held runs)).post fun _ _ => .inl
  | chdir path =>
    cases runs : fs.procs pid with
    | none => exact procAt_gives fun proc again => absurd (runs.symm.trans again) nofun
    | some proc =>
      refine quiet (Gives.widen (sys_chdir_gives held runs) (fun strays => ?_) False.elim)
      obtain ⟨i, seen, free⟩ := strays
      exact ⟨path, by simp [Call.paths], i, ⟨proc, runs, seen⟩, free⟩
  | dup fd => exact quiet (sys_dup_gives held)
  | close fd => exact quiet (sys_close_gives held)
  | write fd data =>
    have wrote : Gives (fs.Tells pid (.write fd data)) (sys_write pid fd data) fs
        fun result next => Outcome [] fs (fs.Site pid (.write fd data) result) next ∨
          Written fs next := sys_write_gives held
    exact wrote.post fun _ next result => result.imp_right fun written => ⟨⟨fd, data, rfl⟩, written⟩
  | read => exact Wp.pure (.inl (.passed held rfl))
  | fork child => exact quiet (fork_gives held (unused child rfl))
  | exit => exact quiet (exit_gives held)

end Calls

/-! ## Runs -/

/-- The inodes of a new file system: the root directory and the files in it. The
directory is filled up to a whole block with free entries. -/
def image (contents : List (List Byte × List Byte)) (i : Nat) : Node :=
  if i = 0 then {}
  else if i = ROOTINO then {
    type := T_DIR
    nlink := 1
    entries := ⟨ROOTINO, dot⟩ :: ⟨ROOTINO, dotdot⟩ :: (contents.mapIdx (fun k file => ⟨ROOTINO + 1 + k, file.1⟩) ++
        List.replicate (32 - (2 + contents.length) % 32) ⟨0, []⟩) }
  else
    match contents[i - (ROOTINO + 1)]? with
    | some file => { type := T_FILE, nlink := 1, data := file.2 }
    | none => {}

def Fs.boot (contents : List (List Byte × List Byte)) : Fs where
  nodes := image contents
  ref i := if i = ROOTINO then 1 else 0
  valid _ := false
  files _ := none
  procs pid := if pid = initproc then some { cwd := ROOTINO, ofile := fun _ => none } else none

def Fs.Next (fs next : Fs) : Prop := ∃ pid call result, fs.Step pid call result next

structure Fs.Settled (fs : Fs) : Prop where
  held : Held [] [] fs
  short : ∀ i, (fs.nodes i).nlink < 2 ^ 16

section Runs

variable {fs next : Fs} {pid : Fin NPROC} {call : Call} {result : Int} {contents : List (List Byte × List Byte)}

theorem boot_users (i : Nat) : (Fs.boot contents).users i = if i = ROOTINO then 1 else 0 := by
  have none : Sharing.users Finset.univ (fun f => ((Fs.boot contents).files f).map (·.inum)) (some i) = 0 := by
    simp [Sharing.users, Fs.boot]
  have one : Sharing.users Finset.univ (fun p => ((Fs.boot contents).procs p).map (·.cwd))
      (some i) = if i = ROOTINO then 1 else 0 := by
    by_cases root : i = ROOTINO
    · rw [root]
      exact (by decide : Sharing.users Finset.univ (fun p => ((Fs.boot []).procs p).map (·.cwd)) (some ROOTINO) = 1)
    · rw [if_neg root]
      refine Nat.eq_zero_of_not_pos fun used => ?_
      obtain ⟨p, _, same⟩ := Sharing.users_pos_iff.mp used
      simp only [Fs.boot] at same
      split at same
      · exact root (Option.some.inj same).symm
      · cases same
  rw [Fs.users, none, one, Nat.zero_add]

theorem image_cases (contents : List (List Byte × List Byte)) (i : Nat) :
    image contents i = {} ∨ (image contents i).nlink = 1 := by
  unfold image
  split
  · exact .inl rfl
  · split
    · exact .inr rfl
    · split
      · exact .inr rfl
      · exact .inl rfl

theorem boot_settled : (Fs.boot contents).Settled := by
  refine ⟨⟨fun i => ?_, fun i used => ?_, fun i valid => ?_, fun i allocated unlinked => ?_⟩, fun i => ?_⟩
  · rw [boot_users, List.count_nil, Nat.zero_add]
    rfl
  · rw [boot_users] at used
    split at used
    · rename_i root
      subst root
      exact (by decide : T_DIR ≠ 0)
    · cases used
  · cases valid
  · cases image_cases contents i with
    | inl free => exact absurd (congrArg Node.type free) allocated
    | inr linked => exact absurd (linked.symm.trans unlinked) (by decide)
  · cases image_cases contents i with
    | inl free => exact lt_of_eq_of_lt (congrArg Node.nlink free) (by decide)
    | inr linked => exact lt_of_eq_of_lt linked (by decide)

/-- The length of a directory does not shrink, and type and data stay. -/
structure Lasts (before after : Node) : Prop where
  type : after.type = before.type
  data : after.data = before.data
  entries : before.entries.length ≤ after.entries.length
  short : before.nlink < 2 ^ 16 → after.nlink < 2 ^ 16

theorem Lasts.refl (node : Node) : Lasts node node := ⟨rfl, rfl, Nat.le_refl _, id⟩

theorem Lasts.trans {first second third : Node} (one : Lasts first second)
    (two : Lasts second third) : Lasts first third :=
  ⟨two.type.trans one.type, two.data.trans one.data, one.entries.trans two.entries, two.short ∘ one.short⟩

theorem lasts_putEntry (node : Node) (position : Nat) (entry : Entry) : Lasts node (node.putEntry position entry) := by
  refine ⟨rfl, rfl, ?_, id⟩
  unfold Node.putEntry
  split
  · exact Nat.le_of_eq (List.length_set).symm
  · rw [List.length_append]
    exact Nat.le_add_right _ _

variable {nodes edited : Nat → Node} {i : Nat}

theorem lasts_update {node : Node} (lasts : Lasts (nodes i) node) (j : Nat) : Lasts (nodes j) (update nodes i node j) :=
  (forall_update_iff nodes (p := fun j node => Lasts (nodes j) node)).mpr ⟨lasts, fun _ _ => .refl _⟩ j

theorem lasts_raise (nodes : Nat → Node) (ip j : Nat) : Lasts (nodes j) (raise nodes ip j) := by
  refine lasts_update ?_ j
  exact ⟨rfl, rfl, Nat.le_refl _, fun _ => Nat.mod_lt _ (by decide)⟩

theorem lasts_lower (nodes : Nat → Node) (ip j : Nat) : Lasts (nodes j) (lower nodes ip j) := by
  refine lasts_update ?_ j
  exact ⟨rfl, rfl, Nat.le_refl _, fun _ => Nat.mod_lt _ (by decide)⟩

theorem lasts_writeEntry (nodes : Nat → Node) (dp position : Nat) (entry : Entry) (j : Nat) :
    Lasts (nodes j) (writeEntry nodes dp position entry j) :=
  lasts_update (lasts_putEntry _ _ _) j

theorem Edit.lasts_or_new {Parent : Nat → Prop} (edit : Edit nodes Parent edited) (i : Nat) :
    Lasts (nodes i) (edited i) ∨ (nodes i).type = 0 ∧ (edited i).nlink = 1 := by
  cases edit with
  | same => exact .inl (.refl _)
  | @node dp ip type name _ room typed free _ _ =>
    unfold addNode
    by_cases isParent : i = dp
    · rw [isParent, update_self]
      have counted : Lasts (nodes dp) { nodes dp with
          nlink := if type = T_DIR then ((nodes dp).nlink + 1) % 2 ^ 16 else (nodes dp).nlink } := by
        refine ⟨rfl, rfl, Nat.le_refl _, fun short => ?_⟩
        split
        · exact Nat.mod_lt _ (by decide)
        · exact short
      exact .inl (counted.trans (lasts_putEntry _ _ _))
    · rw [update_of_ne isParent]
      by_cases new : i = ip
      · rw [new, update_self]
        exact .inr ⟨free, rfl⟩
      · rw [update_of_ne new]
        exact .inl (.refl _)
  | link _ _ _ _ => exact .inl ((lasts_raise _ _ i).trans (lasts_writeEntry _ _ _ _ i))
  | unlink _ _ _ _ _ _ _ _ =>
    refine .inl (Lasts.trans ?_ (lasts_lower _ _ i))
    split
    · exact (lasts_writeEntry _ _ _ _ i).trans (lasts_lower _ _ i)
    · exact lasts_writeEntry _ _ _ _ i

theorem Edit.lasts {Parent : Nat → Prop} (edit : Edit nodes Parent edited)
    (allocated : (nodes i).type ≠ 0) : Lasts (nodes i) (edited i) :=
  (edit.lasts_or_new i).resolve_right fun new => allocated new.1

theorem Edit.short {Parent : Nat → Prop} (edit : Edit nodes Parent edited)
    (short : ∀ j, (nodes j).nlink < 2 ^ 16) (j : Nat) : (edited j).nlink < 2 ^ 16 := by
  rcases edit.lasts_or_new j with lasts | ⟨_, one⟩
  · exact lasts.short (short j)
  · exact lt_of_eq_of_lt one (by decide)

theorem Sweeps.short {users : Nat → Nat} {after : Nat → Node} (swept : Sweeps users nodes after)
    (short : ∀ j, (nodes j).nlink < 2 ^ 16) (j : Nat) : (after j).nlink < 2 ^ 16 := by
  cases swept j with
  | inl same => exact same ▸ short j
  | inr freed =>
    rw [freed.1]
    exact (by decide : 0 < 2 ^ 16)

theorem Fs.Settled.step (settled : fs.Settled) (step : fs.Step pid call result next) :
    next.Settled ∧ (Outcome [] fs (fs.Target pid call) next ∨
      (∃ fd data, call = .write fd data) ∧ Written fs next) := by
  obtain ⟨unused, returned⟩ := step
  have outcome : Outcome [] fs (fs.Target pid call) next ∨ (∃ fd data, call = .write fd data) ∧ Written fs next :=
    ((perform_gives settled.held settled.short unused).returned trivial returned).1.imp_left
      fun outcome => outcome.mono fun _ => And.right
  refine ⟨?_, outcome⟩
  rcases outcome with ⟨held, edited, edit, swept⟩ | ⟨_, held, _, i, data, _, nodes⟩
  · exact ⟨held, swept.short (edit.short settled.short)⟩
  · refine ⟨held, ?_⟩
    rw [nodes]
    exact (forall_update_iff fs.nodes (p := fun _ node => node.nlink < 2 ^ 16)).mpr
      ⟨settled.short i, fun j _ => settled.short j⟩

theorem settled_of_run (run : Relation.ReflTransGen Fs.Next (Fs.boot contents) fs) : fs.Settled := by
  induction run with
  | refl => exact boot_settled
  | tail _ last ih =>
    obtain ⟨pid, call, result, step⟩ := last
    exact (ih.step step).1

/-- What the call does to the inodes before references are dropped. -/
def Changes (fs : Fs) (pid : Fin NPROC) (call : Call) (edited : Nat → Node) : Prop :=
  Edit fs.nodes (fs.Target pid call) edited ∨ ∃ fd data i contents, call = .write fd data ∧
      edited = update fs.nodes i { fs.nodes i with data := contents }

theorem swept_exactly (settled : next.Settled) (swept : Sweeps next.users edited next.nodes)
    (allocated : (edited i).type ≠ 0) :
    next.nodes i = if (edited i).nlink = 0 ∧ next.users i = 0 then {} else edited i := by
  cases swept i with
  | inr freed =>
    rw [if_pos freed.2]
    exact freed.1
  | inl same =>
    rw [if_neg, same]
    intro free
    have kept := settled.held.kept i (same ▸ allocated) (same ▸ free.1)
    rw [free.2] at kept
    exact absurd kept.2 (by simp)

/-- In every run an inode to which an open file or a working directory refers is
allocated, and an allocated inode has links or is referred to. Each call keeps
type, contents and directory length of the inodes, except that writing replaces
the contents, and then frees exactly those that have neither links nor users. -/
theorem referenced_inodes_last (run : Relation.ReflTransGen Fs.Next (Fs.boot contents) fs) :
    (∀ i, 0 < fs.users i → (fs.nodes i).type ≠ 0) ∧
    (∀ i, (fs.nodes i).type ≠ 0 → 0 < (fs.nodes i).nlink ∨ 0 < fs.users i) ∧
    ∀ pid call result next, fs.Step pid call result next →
      ∃ edited, Changes fs pid call edited ∧ ∀ i, (fs.nodes i).type ≠ 0 → (edited i).type = (fs.nodes i).type ∧
        (fs.nodes i).entries.length ≤ (edited i).entries.length ∧
        ((edited i).data = (fs.nodes i).data ∨ ∃ fd data, call = .write fd data) ∧
        next.nodes i = if (edited i).nlink = 0 ∧ next.users i = 0 then {} else edited i := by
  have settled := settled_of_run run
  refine ⟨settled.held.typed, fun i allocated => ?_, fun pid call result next step => ?_⟩
  · cases Nat.eq_zero_or_pos (fs.nodes i).nlink with
    | inl unlinked =>
      have kept := (settled.held.kept i allocated unlinked).2
      rw [List.count_nil, Nat.zero_add] at kept
      exact .inr kept
    | inr linked => exact .inl linked
  · obtain ⟨after, outcome⟩ := settled.step step
    cases outcome with
    | inl outcome =>
      obtain ⟨held, edited, edit, swept⟩ := outcome
      refine ⟨edited, .inl edit, fun i allocated => ?_⟩
      have lasts := edit.lasts allocated
      exact ⟨lasts.type, lasts.entries, .inl lasts.data, swept_exactly after swept (lasts.type ▸ allocated)⟩
    | inr written =>
      obtain ⟨⟨fd, data, isWrite⟩, held, _, j, contents, _, nodes⟩ := written
      refine ⟨next.nodes, .inr ⟨fd, data, j, contents, isWrite, nodes⟩, fun i allocated => ?_⟩
      have type : (next.nodes i).type = (fs.nodes i).type := by
        rw [nodes]
        by_cases same : i = j
        · rw [same, update_self]
        · rw [update_of_ne same]
      have entries : (fs.nodes i).entries = (next.nodes i).entries := by
        rw [nodes]
        by_cases same : i = j
        · rw [same, update_self]
        · rw [update_of_ne same]
      exact ⟨type, Nat.le_of_eq (congrArg _ entries), .inr ⟨fd, data, isWrite⟩,
        swept_exactly after (.of_eq rfl) (type ▸ allocated)⟩

end Runs

/-! ## Concrete runs -/

def Fs.after (fs : Fs) : List (Fin NPROC × Call) → Option Fs
  | [] => some fs
  | (pid, call) :: rest =>
    match perform pid call (fs, ()) with
    | .ok _ (next, _) => next.after rest
    | .error _ _ => none

theorem run_of_after {fs next : Fs} {calls : List (Fin NPROC × Call)}
    (ends : fs.after calls = some next) (noFork : ∀ one ∈ calls, ∀ child, one.2 ≠ .fork child) :
    Relation.ReflTransGen Fs.Next fs next := by
  induction calls generalizing fs with
  | nil =>
    rw [Option.some.inj ends]
  | cons one rest ih =>
    obtain ⟨pid, call⟩ := one
    simp only [Fs.after] at ends
    split at ends
    · rename_i result middle _ returned
      have first : fs.Next middle :=
        ⟨pid, call, result, fun child same => noFork (pid, call) (by simp) child same |>.elim, returned⟩
      exact .head first (ih ends fun later member => noFork later (by simp [member]))
    · cases ends

theorem reached_of_after {fs : Fs} {calls : List (Fin NPROC × Call)} {holds : Fs → Bool}
    (ends : (fs.after calls).any holds = true) (noFork : ∀ one ∈ calls, ∀ child, one.2 ≠ .fork child) :
    ∃ next, Relation.ReflTransGen Fs.Next fs next ∧ holds next = true := by
  cases after : fs.after calls with
  | none =>
    rw [after] at ends
    cases ends
  | some next =>
    rw [after] at ends
    exact ⟨next, run_of_after after noFork, ends⟩

/-- The path `x`. -/
abbrev pathX : List Byte := [120]

/-- The calls make a file, open it and remove its only link. -/
theorem referenced_inodes_last_unlinked :
    ∃ fs, Relation.ReflTransGen Fs.Next (Fs.boot []) fs ∧ (fs.nodes 2).nlink = 0 ∧
      0 < fs.users 2 ∧ (fs.nodes 2).type ≠ 0 := by
  have ended : ((Fs.boot []).after [(initproc, .open pathX (O_CREATE ||| O_RDWR)), (initproc, .unlink pathX)]).any
        (fun fs => (fs.nodes 2).nlink = 0 ∧ 0 < fs.users 2) = true := by
    decide +kernel
  obtain ⟨fs, run, holds⟩ := reached_of_after ended (by simp)
  obtain ⟨unlinked, used⟩ := of_decide_eq_true holds
  exact ⟨fs, run, unlinked, used, (referenced_inodes_last run).1 2 used⟩

end Xv6Dedup.Tree
