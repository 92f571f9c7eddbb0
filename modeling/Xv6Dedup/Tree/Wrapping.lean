import Xv6Dedup.Tree.Structure

/-!
# A link count that wraps around

A directory can be removed while it is a working directory, and entries made in it
afterwards vanish with it without being counted off. Each round of making such a
directory, removing it and linking a file into it leaves the file with one link
too many, until the count wraps around and the file is freed under its name.
-/

set_option autoImplicit false

namespace Xv6Dedup.Tree

open Program

/-! ## Running programs -/

def outcome {α : Type} (program : TreeM α) (fs : Fs) : Option (α × Fs) :=
  match program (fs, ()) with
  | .ok value (next, _) => some (value, next)
  | .error _ _ => none

theorem returns_of_outcome {α : Type} {program : TreeM α} {fs next : Fs} {value : α}
    (ends : outcome program fs = some (value, next)) : program (fs, ()) = .ok value (next, ()) := by
  unfold outcome at ends
  split at ends
  · rename_i found state _ returned
    obtain ⟨rfl, rfl⟩ := Prod.mk.inj (Option.some.inj ends)
    exact returned
  · cases ends

theorem state_eq {fs next : Fs}
    (inodes : ∀ i, (fs.nodes i, fs.ref i, fs.valid i) = (next.nodes i, next.ref i, next.valid i))
    (files : fs.files = next.files) (procs : ∀ pid, fs.procs pid = next.procs pid) : fs = next := by
  cases fs
  cases next
  simp only [Prod.mk.injEq] at inodes
  congr
  · exact funext fun i => (inodes i).1
  · exact funext fun i => (inodes i).2.1
  · exact funext fun i => (inodes i).2.2
  · exact funext procs

theorem outcome_eq {α : Type} {result : Option (α × Fs)} {value : α} {next : Fs}
    (values : result.map (·.1) = some value)
    (inodes : ∀ i, result.map (fun found => (found.2.nodes i, found.2.ref i, found.2.valid i)) =
      some (next.nodes i, next.ref i, next.valid i)) (files : result.map (·.2.files) = some next.files)
    (procs : ∀ pid, result.map (·.2.procs pid) = some (next.procs pid)) : result = some (value, next) := by
  cases result with
  | none => cases values
  | some pair =>
    obtain ⟨found, fs⟩ := pair
    obtain rfl : found = value := Option.some.inj values
    have same : fs = next := state_eq (fun i => Option.some.inj (inodes i))
      (Option.some.inj files) fun pid => Option.some.inj (procs pid)
    rw [same]

/-! ## The states of one round -/

/-- The names `f` and `g`, and the paths `/`, `/f` and `/a`. -/
abbrev nameF : List Byte := [102]
abbrev nameG : List Byte := [103]
abbrev pathRoot : List Byte := [47]
abbrev pathRootF : List Byte := [47, 102]
abbrev pathDirA : List Byte := [47, 97]

/-- The root directory with one file, and possibly the directory `a`. -/
def rootWith (nlink : Nat) (entry : Entry) : Node where
  type := T_DIR
  nlink := nlink
  entries := [⟨1, dot⟩, ⟨1, dotdot⟩, ⟨2, nameF⟩, entry] ++ List.replicate 28 ⟨0, []⟩

/-- The directory `a`. -/
def subWith (nlink : Nat) (entries : List Entry) : Node where
  type := T_DIR
  nlink := nlink
  entries := [⟨3, dot⟩, ⟨1, dotdot⟩] ++ entries

/-- The file has `links` links, and one process is in the directory `cwd`. -/
def stage (links : Nat) (root sub : Node) (held : Bool) (cwd : Nat) : Fs where
  nodes
    | 1 => root
    | 2 => { type := T_FILE, nlink := links }
    | 3 => sub
    | _ => {}
  ref i := if i = cwd then 1 else 0
  valid
    | 1 => true
    | 2 => true
    | 3 => held
    | _ => false
  files _ := none
  procs pid := if pid = initproc then some { cwd := cwd, ofile := fun _ => none } else none

abbrev idle (links : Nat) : Fs := stage links (rootWith 1 ⟨0, []⟩) {} false 1

theorem forall_inode {P : Nat → Prop} (zero : P 0) (one : P 1) (two : P 2) (three : P 3)
    (others : ∀ i, P (i + 4)) (i : Nat) : P i :=
  match i with
  | 0 => zero
  | 1 => one
  | 2 => two
  | 3 => three
  | i + 4 => others i

set_option maxRecDepth 20000

theorem mkdir_stage (links : Nat) : outcome (perform initproc (.mkdir pathDirA)) (idle links) =
    some (0, stage links (rootWith 2 ⟨3, [97]⟩) (subWith 1 []) true 1) :=
  outcome_eq rfl (forall_inode rfl rfl rfl rfl fun _ => rfl) rfl fun _ => rfl

theorem enter_stage (links : Nat) : outcome (perform initproc (.chdir pathDirA))
        (stage links (rootWith 2 ⟨3, [97]⟩) (subWith 1 []) true 1) =
      some (0, stage links (rootWith 2 ⟨3, [97]⟩) (subWith 1 []) true 3) :=
  outcome_eq rfl (forall_inode rfl rfl rfl rfl fun _ => rfl) rfl (Fin.cases rfl fun _ => rfl)

/-- What `unlink` does before it removes the entry. -/
def unlinkHead : TreeM Unit := do
  let _ ← nameiparent 3 pathDirA
  ilock 1
  let _ ← dirlookup 1 [97]
  ilock 3

def unlinkTail : TreeM Int := do
  setNlink 1 (· + (2 ^ 16 - 1))
  iput 1
  setNlink 3 (· + (2 ^ 16 - 1))
  iput 3
  pure 0

def Fs.counting (fs : Fs) (root file sub : Nat) : Fs :=
  { fs with
    ref := fun
      | 1 => root
      | 2 => file
      | 3 => sub
      | _ => 0 }

attribute [local irreducible] unlinkEntry in
theorem unlink_head (links : Nat) : perform initproc (.unlink pathDirA)
        (stage links (rootWith 2 ⟨3, [97]⟩) (subWith 1 []) true 3, ()) = (do unlinkHead; unlinkEntry 1 3 3 : TreeM Int)
        (stage links (rootWith 2 ⟨3, [97]⟩) (subWith 1 []) true 3, ()) := rfl

theorem unlinkHead_stage (links : Nat) : outcome unlinkHead (stage links (rootWith 2 ⟨3, [97]⟩) (subWith 1 []) true 3) =
      some ((), (stage links (rootWith 2 ⟨3, [97]⟩) (subWith 1 []) true 3).counting 1 0 2) :=
  outcome_eq rfl (forall_inode rfl rfl rfl rfl fun _ => rfl) rfl fun _ => rfl

theorem unlink_tail (fs : Fs) (directory : (fs.nodes 3).type = T_DIR) : unlinkEntry 1 3 3 (fs, ()) =
      unlinkTail (fs.setNode 1 ((fs.nodes 1).putEntry 3 { inum := 0, name := [] }), ()) := by
  refine (bind_ok rfl).trans ((bind_ok rfl).trans ?_)
  have lowers {program : TreeM Unit} : onlyIf (((fs.setNode 1
      ((fs.nodes 1).putEntry 3 { inum := 0, name := [] })).nodes 3).type = T_DIR) program = program :=
    if_pos directory
  rw [lowers]
  rfl

theorem setNlink_run (fs : Fs) (i count : Nat) (update : Nat → Nat)
    (value : update (fs.nodes i).nlink % 2 ^ 16 = count) :
    setNlink i update (fs, ()) = .ok () (fs.setNode i { fs.nodes i with nlink := count }, ()) := by
  rw [← value]
  rfl

theorem iput_run (fs : Fs) (i : Nat) : iput i (fs, ()) = .ok () (fs.put i, ()) := by
  refine (bind_ok rfl).trans ?_
  unfold Fs.put onlyIf
  split
  · exact bind_ok rfl
  · exact bind_ok rfl

theorem unlinkTail_run (fs : Fs) (root : (fs.nodes 1).nlink = 2) (sub : (fs.nodes 3).nlink = 1) :
    unlinkTail (fs, ()) = .ok 0 (((((fs.setNode 1 { fs.nodes 1 with nlink := 1 }).put 1).setNode 3
      { ((fs.setNode 1 { fs.nodes 1 with nlink := 1 }).put 1).nodes 3 with nlink := 0 }).put 3),
      ()) := by
  have still : (((fs.setNode 1 { fs.nodes 1 with nlink := 1 }).put 1).nodes 3).nlink = 1 := by
    rcases put_nodes (fs.setNode 1 { fs.nodes 1 with nlink := 1 }) 1 with same | ⟨freed, _⟩
    · rw [same]
      exact sub
    · rw [freed]
      exact sub
  refine (bind_ok (setNlink_run fs 1 1 _ (by rw [root]; decide))).trans ?_
  refine (bind_ok (iput_run _ 1)).trans ?_
  refine (bind_ok (setNlink_run _ 3 0 _ (by rw [still]; decide))).trans ?_
  exact (bind_ok (iput_run _ 3)).trans rfl

theorem unlink_stage (links : Nat) : perform initproc (.unlink pathDirA)
        (stage links (rootWith 2 ⟨3, [97]⟩) (subWith 1 []) true 3, ()) =
      .ok 0 (stage links (rootWith 1 ⟨0, []⟩) (subWith 0 []) true 3, ()) := by
  rw [unlink_head, bind_ok (returns_of_outcome (unlinkHead_stage links)), unlink_tail _ rfl, unlinkTail_run _ rfl rfl]
  refine congrArg (fun next => EStateM.Result.ok 0 (next, ())) (state_eq ?_ rfl fun _ => rfl)
  exact forall_inode rfl rfl rfl rfl fun _ => rfl

theorem leave_stage (links : Nat) : outcome (perform initproc (.chdir pathRoot))
        (stage links (rootWith 1 ⟨0, []⟩) (subWith 0 [⟨2, nameG⟩]) true 3) = some (0, idle links) :=
  outcome_eq rfl (forall_inode rfl rfl rfl rfl fun _ => rfl) rfl (Fin.cases rfl fun _ => rfl)

/-- What `link` does in the removed directory before it puts the file. -/
def linkHead : TreeM Unit := do
  let _ ← namei 3 pathRootF
  ilock 2
  setNlink 2 (· + 1)
  let _ ← nameiparent 3 nameG
  ilock 3
  let _ ← dirlink 3 nameG 2
  iput 3

theorem link_head (links : Nat) : perform initproc (.link pathRootF nameG)
        (stage links (rootWith 1 ⟨0, []⟩) (subWith 0 []) true 3, ()) =
      (do linkHead; iput 2; pure 0 : TreeM Int) (stage links (rootWith 1 ⟨0, []⟩) (subWith 0 []) true 3, ()) := by
  rfl

theorem linkHead_stage (links : Nat) : outcome linkHead (stage links (rootWith 1 ⟨0, []⟩) (subWith 0 []) true 3) =
      some ((), (stage ((links + 1) % 2 ^ 16) (rootWith 1 ⟨0, []⟩) (subWith 0 [⟨2, nameG⟩]) true 3).counting 0 1 1) :=
  outcome_eq rfl (forall_inode rfl rfl rfl rfl fun _ => rfl) rfl fun _ => rfl

theorem link_stage {links : Nat} (small : links + 1 < 2 ^ 16) : perform initproc (.link pathRootF nameG)
        (stage links (rootWith 1 ⟨0, []⟩) (subWith 0 []) true 3, ()) =
      .ok 0 (stage (links + 1) (rootWith 1 ⟨0, []⟩) (subWith 0 [⟨2, nameG⟩]) true 3, ()) := by
  have head := returns_of_outcome (linkHead_stage links)
  rw [Nat.mod_eq_of_lt small] at head
  rw [link_head, bind_ok head]
  refine congrArg (fun next => EStateM.Result.ok 0 (next, ())) (state_eq ?_ rfl fun _ => rfl)
  exact forall_inode rfl rfl rfl rfl fun _ => rfl

/-! ## Rounds -/

theorem Fs.Next.of_run {fs next : Fs} {call : Call} {result : Int}
    (runs : perform initproc call (fs, ()) = .ok result (next, ()))
    (noFork : ∀ child, call ≠ .fork child) : fs.Next next :=
  ⟨initproc, call, result, fun child same => absurd same (noFork child), runs⟩

theorem removed_of_idle (links : Nat) : Relation.ReflTransGen Fs.Next (idle links)
    (stage links (rootWith 1 ⟨0, []⟩) (subWith 0 []) true 3) := by
  refine .head (.of_run (returns_of_outcome (mkdir_stage links)) fun _ => nofun) ?_
  refine .head (.of_run (returns_of_outcome (enter_stage links)) fun _ => nofun) ?_
  exact .single (.of_run (unlink_stage links) fun _ => nofun)

theorem round {links : Nat} (small : links + 1 < 2 ^ 16) :
    Relation.ReflTransGen Fs.Next (idle links) (idle (links + 1)) := by
  refine (removed_of_idle links).trans (.head (.of_run (link_stage small) fun _ => nofun) ?_)
  exact .single (.of_run (returns_of_outcome (leave_stage (links + 1))) fun _ => nofun)

theorem rounds (count : Nat) (small : count + 1 < 2 ^ 16) :
    Relation.ReflTransGen Fs.Next (idle 1) (idle (count + 1)) := by
  induction count with
  | zero => exact .refl
  | succ count ih => exact (ih (Nat.lt_of_succ_lt small)).trans (round small)

theorem idle_of_boot : Relation.ReflTransGen Fs.Next (Fs.boot [(nameF, [])]) (idle 1) := by
  have failed : outcome (perform initproc (.link pathRootF pathRootF)) (Fs.boot [(nameF, [])]) = some (-1, idle 1) :=
    outcome_eq rfl (forall_inode rfl rfl rfl rfl fun _ => rfl) rfl fun _ => rfl
  exact .single (.of_run (returns_of_outcome failed) fun _ => nofun)

end Xv6Dedup.Tree
