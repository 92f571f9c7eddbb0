import Mathlib.Data.Set.Card
import Xv6Dedup.Tree.Structure

/-!
# Link counts

While no entry is made in a directory that has been removed, every link count is
the number of entries under the root that name the inode, and lookups that start
under the root come to allocated inodes only.
-/

set_option autoImplicit false

namespace Xv6Dedup.Tree

open Program

/-- The entries other than `.` that name the inode in directories under the root. -/
noncomputable def linksTo (nodes : Nat → Node) (i : Nat) : Nat :=
  Set.ncard { place : Place | (∃ names, Leads nodes names place.1) ∧
    (nodes place.1).type = T_DIR ∧ ∃ entry, (nodes place.1).entries[place.2]? = some entry ∧
      entry.inum = i ∧ entry.name ≠ dot }

/-- Link counts are the numbers of links, and what has links is under the root. -/
def LinksExact (nodes : Nat → Node) : Prop :=
  ∀ i, (nodes i).type ≠ 0 → (nodes i).nlink = linksTo nodes i ∧ (1 ≤ (nodes i).nlink → ∃ names, Leads nodes names i)

section Counting

variable {nodes : Nat → Node} {i : Nat}

/-- The parent entry that belongs to a place which names a directory. -/
def upPlace (nodes : Nat → Node) (place : Place) : Place :=
  (((shape nodes).target place).getD 0, 1)

def upPlaces (nodes : Nat → Node) (i : Nat) : Finset Place :=
  (slots.filter fun place => (shape nodes).inner Prod.fst place = some i).image (upPlace nodes) ∪
    if i = ROOTINO then {(ROOTINO, 1)} else ∅

theorem inner_cases {place : Place} (inner : (shape nodes).inner Prod.fst place = some i) :
    ∃ d, (shape nodes).target place = some d ∧ (nodes d).type = T_DIR ∧ place.1 = i := by
  obtain ⟨d, named, isFolder, here⟩ := Hierarchy.inner_eq_some.mp inner
  exact ⟨d, named, of_decide_eq_true isFolder, here⟩

theorem mem_upPlaces (dotted : Dotted nodes) (sound : Sound nodes) (attached : Attached nodes)
    (place : Place) : place ∈ upPlaces nodes i ↔ Reach nodes place.1 ∧ (nodes place.1).type = T_DIR ∧
      place.2 = 1 ∧ (nodes place.1).entries[1]? = some ⟨i, dotdot⟩ := by
  obtain ⟨d, k⟩ := place
  have upOf {d : Nat} (directory : (nodes d).type = T_DIR) :
      (nodes d).entries[1]? = some ⟨(shape nodes).parent d, dotdot⟩ := by
    obtain ⟨up, _, read⟩ := (dotted.folder d directory).up
    rw [parent_of_up read]
    exact read
  unfold upPlaces
  rw [Finset.mem_union, Finset.mem_image]
  constructor
  · intro member
    rcases member with ⟨place, found, same⟩ | root
    · obtain ⟨child, named, directory, rfl⟩ := inner_cases (Finset.mem_filter.mp found).2
      have back := sound.back place child named (decide_eq_true directory)
      rw [upPlace, named] at same
      obtain ⟨rfl, rfl⟩ := Prod.mk.inj same
      have reach : Reach nodes child := .step (attached place child named) named
      refine ⟨reach, directory, rfl, ?_⟩
      rw [← back]
      exact upOf directory
    · split at root
      · rename_i isRoot
        obtain ⟨rfl, rfl⟩ := Prod.mk.inj (Finset.mem_singleton.mp root)
        subst isRoot
        exact ⟨.root, of_decide_eq_true sound.top, rfl, dotted.top⟩
      · cases root
  · intro found
    obtain ⟨reach, directory, one, read⟩ := found
    have parent := parent_of_up read
    obtain rfl : k = 1 := one
    cases reach with
    | root =>
      refine .inr ?_
      rw [dotted.top] at read
      have isRoot : ROOTINO = i := congrArg Entry.inum (Option.some.inj read)
      rw [if_pos isRoot.symm]
      exact Finset.mem_singleton_self _
    | @step place _ _ named =>
      refine .inl ⟨place, Finset.mem_filter.mpr ⟨sound.within place d named, ?_⟩, ?_⟩
      · have isFolder : (shape nodes).folder d = true := decide_eq_true directory
        exact Hierarchy.inner_eq_some.mpr ⟨d, named, isFolder, (sound.back place d named isFolder).symm.trans parent⟩
      · rw [upPlace, named]
        rfl

theorem card_upPlaces (sound : Sound nodes) : (upPlaces nodes i).card =
    Sharing.users slots ((shape nodes).inner Prod.fst) (some i) + if i = ROOTINO then 1 else 0 := by
  have injective : Set.InjOn (upPlace nodes)
      (slots.filter fun place => (shape nodes).inner Prod.fst place = some i) := by
    intro place member other otherMember same
    obtain ⟨d, named, directory, _⟩ := inner_cases (Finset.mem_filter.mp member).2
    obtain ⟨e, otherNamed, _, _⟩ := inner_cases (Finset.mem_filter.mp otherMember).2
    rw [upPlace, upPlace, named, otherNamed] at same
    obtain rfl : d = e := (Prod.mk.inj same).1
    exact sound.single place other d named otherNamed (decide_eq_true directory)
  unfold upPlaces Sharing.users
  rw [Finset.card_union_of_disjoint, Finset.card_image_of_injOn injective]
  · split
    · rw [Finset.card_singleton]
    · rw [Finset.card_empty]
  · rw [Finset.disjoint_left]
    intro place member root
    split at root
    · obtain ⟨origin, found, same⟩ := Finset.mem_image.mp member
      obtain ⟨d, named, _, _⟩ := inner_cases (Finset.mem_filter.mp found).2
      rw [upPlace, named, Finset.mem_singleton.mp root] at same
      exact sound.below origin d named (Prod.mk.inj same).1
    · cases root

theorem mem_links (dotted : Dotted nodes) (sound : Sound nodes) (attached : Attached nodes)
    (positive : i ≠ 0) (place : Place) :
    ((∃ names, Leads nodes names place.1) ∧ (nodes place.1).type = T_DIR ∧
      ∃ entry, (nodes place.1).entries[place.2]? = some entry ∧ entry.inum = i ∧ entry.name ≠ dot) ↔
      place ∈ (slots.filter fun place => (shape nodes).target place = some i) ∪ upPlaces nodes i := by
  rw [Finset.mem_union, Finset.mem_filter, mem_upPlaces dotted sound attached, ← reach_iff_leads dotted]
  obtain ⟨d, k⟩ := place
  constructor
  · intro link
    obtain ⟨reach, directory, entry, read, rfl, notSelf⟩ := link
    have folder := dotted.folder d directory
    match k with
    | 0 =>
      rw [folder.self] at read
      exact absurd (congrArg Entry.name (Option.some.inj read)).symm notSelf
    | 1 =>
      obtain ⟨up, _, upEntry⟩ := folder.up
      rw [upEntry] at read
      rw [← Option.some.inj read]
      exact .inr ⟨reach, directory, rfl, upEntry⟩
    | k + 2 =>
      have named : (shape nodes).target (d, k + 2) = some entry.inum :=
        child_eq_some.mpr ⟨directory, Nat.le_add_left 2 k, entry, read, rfl, positive⟩
      exact .inl ⟨sound.within _ _ named, named⟩
  · intro found
    rcases found with ⟨_, named⟩ | ⟨reach, directory, one, read⟩
    · obtain ⟨directory, past, entry, read, inum, used⟩ := child_eq_some.mp named
      have inside := dotted.inside d (by rw [directory]; decide)
      have plain := (dotted.folder d directory).plain (Nat.ne_of_gt inside.1) past read (inum ▸ used)
      exact ⟨attached (d, k) i named, directory, entry, read, inum, plain.1⟩
    · obtain rfl : k = 1 := one
      exact ⟨reach, directory, _, read, rfl, (by decide : dotdot ≠ dot)⟩

theorem linksTo_eq (dotted : Dotted nodes) (sound : Sound nodes) (attached : Attached nodes)
    (positive : i ≠ 0) : linksTo nodes i = (shape nodes).count slots Prod.fst i + if i = ROOTINO then 1 else 0 := by
  have same : { place : Place | (∃ names, Leads nodes names place.1) ∧
      (nodes place.1).type = T_DIR ∧ ∃ entry, (nodes place.1).entries[place.2]? = some entry ∧
        entry.inum = i ∧ entry.name ≠ dot } =
      ↑((slots.filter fun place => (shape nodes).target place = some i) ∪ upPlaces nodes i) :=
    Set.ext (mem_links dotted sound attached positive)
  unfold linksTo
  rw [same, Set.ncard_coe_finset, Finset.card_union_of_disjoint, card_upPlaces sound, ← Nat.add_assoc]
  · rfl
  · rw [Finset.disjoint_left]
    intro place member up
    obtain ⟨_, past, _⟩ := child_eq_some.mp (Finset.mem_filter.mp member).2
    have one := ((mem_upPlaces dotted sound attached place).mp up).2.2.1
    omega

theorem linksExact_of_exact (dotted : Dotted nodes) (sound : Sound nodes) (exact : Exact nodes)
    (attached : Attached nodes) : LinksExact nodes := by
  intro i allocated
  have positive : i ≠ 0 := Nat.ne_of_gt (dotted.inside i allocated).1
  have links : (nodes i).nlink = linksTo nodes i := by
    rw [linksTo_eq dotted sound attached positive]
    exact (exact i allocated).symm
  refine ⟨links, fun linked => ?_⟩
  rw [links, Nat.one_le_iff_ne_zero] at linked
  obtain ⟨place, member⟩ := Set.nonempty_of_ncard_ne_zero linked
  have found := (mem_links dotted sound attached positive place).mp member
  rw [Finset.mem_union, Finset.mem_filter, mem_upPlaces dotted sound attached] at found
  refine (reach_iff_leads dotted).mp ?_
  rcases found with ⟨_, named⟩ | ⟨reach, directory, _, read⟩
  · exact .step (attached place i named) named
  · rcases sound.reach_parent reach (decide_eq_true directory) with root | above
    · rw [root, dotted.top] at read
      have isRoot : ROOTINO = i := congrArg Entry.inum (Option.some.inj read)
      rw [← isRoot]
      exact .root
    · rw [parent_of_up read] at above
      exact above

end Counting

/-! ## What the calls keep -/

section Steps

variable {nodes edited after : Nat → Node} {Parent : Nat → Prop} {users : Nat → Nat}

theorem Seen.reach {source i : Nat} (seen : Seen nodes source i) (dotted : Dotted nodes)
    (sound : Sound nodes) (start : Reach nodes source) : Reach nodes i := by
  induction seen with
  | source => exact start
  | @entry d entry _ directory member used ih =>
    have folder := dotted.folder d directory
    obtain ⟨k, read⟩ := List.getElem?_of_mem member
    match k with
    | 0 =>
      rw [folder.self] at read
      rw [← Option.some.inj read]
      exact ih
    | 1 =>
      obtain ⟨up, _, upEntry⟩ := folder.up
      rw [upEntry] at read
      rw [← Option.some.inj read]
      rcases sound.reach_parent ih (decide_eq_true directory) with root | above
      · rw [root, dotted.top] at upEntry
        have isRoot : ROOTINO = up := congrArg Entry.inum (Option.some.inj upEntry)
        rw [← isRoot]
        exact .root
      · rw [parent_of_up upEntry] at above
        exact above
    | k + 2 =>
      have named : (shape nodes).target (d, k + 2) = some entry.inum :=
        child_eq_some.mpr ⟨directory, Nat.le_add_left 2 k, entry, read, rfl, used⟩
      have step : Reach nodes entry.inum := .step ih named
      exact step

end Steps

/-! ## Runs -/

def Fs.Rooted (fs : Fs) (pid : Fin NPROC) (paths : List (List Byte)) : Prop :=
  ∀ path ∈ paths, path.head? ≠ some slash → ∀ proc, fs.procs pid = some proc →
    ∃ names, Leads fs.nodes names proc.cwd

/-- The state while entries are made and removed under the root only. -/
structure Fs.Counted (fs : Fs) : Prop extends fs.Formed where
  exact : Exact fs.nodes
  attached : Attached fs.nodes

/-- Some call returns that changes a directory under the root, if any, and started
with room for one more link of any inode. -/
def Fs.TidyNext (fs next : Fs) : Prop :=
  fs.Calm ∧ ∃ pid call result, fs.Rooted pid call.targets ∧ fs.Step pid call result next

/-- Some call returns that looks up paths under the root, if any, and started with
room for one more link of any inode. -/
def Fs.RootedNext (fs next : Fs) : Prop :=
  fs.Calm ∧ ∃ pid call result, fs.Rooted pid call.paths ∧ fs.Step pid call result next

section Runs

variable {fs next : Fs} {pid : Fin NPROC} {call : Call} {result : Int} {i : Nat}
  {path : List Byte} {paths : List (List Byte)} {contents : List (List Byte × List Byte)}

theorem Fs.Looks.reach (looks : fs.Looks pid path i) (formed : fs.Formed)
    (rooted : fs.Rooted pid paths) (member : path ∈ paths) : Reach fs.nodes i := by
  obtain ⟨proc, runs, seen⟩ := looks
  refine seen.reach formed.dotted formed.sound ?_
  unfold origin
  split
  · exact .root
  · rename_i relative
    exact (reach_iff_leads formed.dotted).mpr (rooted path member relative proc runs)

theorem Fs.Counted.step (counted : fs.Counted) (calm : fs.Calm)
    (rooted : fs.Rooted pid call.targets) (step : fs.Step pid call result next) : next.Counted := by
  have formed := counted.toFormed.step calm step
  obtain ⟨_, outcome⟩ := counted.toSettled.step step
  rcases outcome with ⟨_, edited, edit, swept⟩ | ⟨_, _, _, i, data, _, nodes⟩
  · have change := edit.change counted.dotted counted.sound calm
    have sound := counted.sound.change change
    have exact := Hierarchy.Exact.change counted.exact counted.sound change
    have attached : Attached edited := Hierarchy.Attached.change counted.attached change fun dp target => by
        obtain ⟨path, member, looks⟩ := target
        exact looks.reach counted.toFormed rooted member
    have freed := sweeps_freed swept
    exact ⟨formed, Hierarchy.Exact.freed exact attached sound freed, Hierarchy.Attached.freed attached sound freed⟩
  · refine ⟨formed, ?_, ?_⟩
    · rw [nodes, Exact, shape_data]
      exact counted.exact
    · rw [nodes, Attached, shape_data]
      exact counted.attached

/-- In every run in which no entry is made or removed through a working directory
that has been removed, and no link count is at its maximum before a call, link
counts are the numbers of links. -/
theorem link_counts_exact (acceptable : Acceptable contents)
    (run : Relation.ReflTransGen Fs.TidyNext (Fs.boot contents) fs) : LinksExact fs.nodes := by
  have counted : fs.Counted := by
    induction run with
    | refl => exact ⟨boot_formed acceptable, image_exact acceptable, image_attached⟩
    | tail _ last ih =>
      obtain ⟨calm, pid, call, result, rooted, step⟩ := last
      exact ih.step calm rooted step
  exact linksExact_of_exact counted.dotted counted.sound counted.exact counted.attached

/-- In every run in which relative paths are looked up from directories under the
root only, and no link count is at its maximum before a call, such lookups come to
allocated inodes, and no call stops at a lock on a free inode. -/
theorem lookups_find_allocated (acceptable : Acceptable contents)
    (run : Relation.ReflTransGen Fs.RootedNext (Fs.boot contents) fs)
    (rooted : fs.Rooted pid call.paths)
    (unused : ∀ child, call = .fork child → fs.procs child = none) :
    (∀ path ∈ call.paths, ∀ i, fs.Looks pid path i → (fs.nodes i).type ≠ 0) ∧
      ∀ next, perform pid call (fs, ()) ≠ .error (.panic "ilock: no type") next := by
  have calmRun : Relation.ReflTransGen Fs.CalmNext (Fs.boot contents) fs := by
    refine Relation.ReflTransGen.mono (fun _ _ rootedStep => ?_) _ _ run
    obtain ⟨calm, pid, call, result, _, step⟩ := rootedStep
    exact ⟨calm, pid, call, result, step⟩
  have formed := formed_of_run acceptable calmRun
  have allocated (path : List Byte) (member : path ∈ call.paths) (i : Nat)
      (looks : fs.Looks pid path i) : (fs.nodes i).type ≠ 0 :=
    formed.sound.reach_live (looks.reach formed rooted member)
  refine ⟨allocated, fun next stopped => ?_⟩
  have gives : Gives (fs.Tells pid call) (perform pid call) fs _ :=
    perform_gives formed.held formed.short unused
  obtain ⟨path, member, i, looks, free⟩ := (gives.stopped trivial stopped).lost rfl
  exact allocated path member i looks free

end Runs

/-! ## Removed directories -/

/-- The path `/a`. -/
abbrev pathRootA : List Byte := [47, 97]

theorem boot_rooted (contents : List (List Byte × List Byte)) (pid : Fin NPROC)
    (paths : List (List Byte)) : (Fs.boot contents).Rooted pid paths := by
  intro path _ _ proc runs
  simp only [Fs.boot] at runs
  split at runs
  · rw [← Option.some.inj runs]
    exact ⟨[], .root⟩
  · cases runs

theorem link_counts_exact_mkdir : ∃ fs : Fs, (fs.nodes 2).type = T_DIR ∧ LinksExact fs.nodes := by
  obtain ⟨result, fs, step, directory⟩ := boot_mkdir
  refine ⟨fs, directory, link_counts_exact acceptable_nil (.single ?_)⟩
  exact ⟨boot_calm [], initproc, _, result, boot_rooted [] initproc _, step⟩

/-- A file is made in a working directory that has been removed: it has one link,
but no path leads to it. -/
theorem file_in_removed_directory : ∃ fs, Relation.ReflTransGen Fs.Next (Fs.boot []) fs ∧
    ¬ LinksExact fs.nodes := by
  have ended : ((Fs.boot []).after [(initproc, .mkdir pathA), (initproc, .chdir pathA),
      (initproc, .unlink pathRootA), (initproc, .open pathX O_CREATE)]).any (fun fs =>
        (fs.nodes 3).type ≠ 0 ∧ (fs.nodes 3).nlink = 1 ∧ ∀ entry ∈ (fs.nodes ROOTINO).entries,
          entry.inum = 0 ∨ entry.name = dot ∨ entry.name = dotdot) = true := by
    decide +kernel
  obtain ⟨fs, run, holds⟩ := reached_of_after ended (by simp)
  obtain ⟨allocated, linked, none⟩ := of_decide_eq_true holds
  refine ⟨fs, run, fun exact => ?_⟩
  have onlyRoot {names : List (List Byte)} {i : Nat} (leads : Leads fs.nodes names i) : i = ROOTINO := by
    induction leads with
    | root => rfl
    | @entry names d entry _ _ member used notSelf notUp ih =>
      rw [ih] at member
      rcases none entry member with free | self | up
      · exact absurd free used
      · exact absurd self notSelf
      · exact absurd up notUp
  obtain ⟨names, leads⟩ := (exact 3 allocated).2 (Nat.le_of_eq linked.symm)
  exact absurd (onlyRoot leads) (by decide)

/-- The paths `a/b` and `/a/b`. -/
abbrev pathB : List Byte := [97, 47, 98]
abbrev pathRootB : List Byte := [47, 97, 47, 98]

theorem lookups_find_allocated_mkdir : ∃ fs : Fs, (fs.nodes 2).type = T_DIR ∧
    ∀ next, perform initproc (.open pathRootA O_RDONLY) (fs, ()) ≠ .error (.panic "ilock: no type") next := by
  obtain ⟨result, fs, step, directory⟩ := boot_mkdir
  refine ⟨fs, directory, (lookups_find_allocated acceptable_nil (.single ?_) ?_ ?_).2⟩
  · exact ⟨boot_calm [], initproc, _, result, boot_rooted [] initproc _, step⟩
  · intro path member relative
    rw [List.mem_singleton.mp member] at relative
    exact absurd rfl relative
  · intro child same
    cases same

/-- A working directory is removed, and then its parent, which is freed: the
lookup of `..` comes to a free inode. -/
theorem lookup_of_freed_parent : ∃ fs, Relation.ReflTransGen Fs.Next (Fs.boot []) fs ∧
    ∃ next, perform initproc (.open dotdot O_RDONLY) (fs, ()) = .error (.panic "ilock: no type") next := by
  have ended : ((Fs.boot []).after [(initproc, .mkdir pathA), (initproc, .mkdir pathB),
      (initproc, .chdir pathB), (initproc, .unlink pathRootB), (initproc, .unlink pathRootA)]).any
        (fun fs => match perform initproc (.open dotdot O_RDONLY) (fs, ()) with
          | .ok _ _ => false
          | .error reason _ => reason = .panic "ilock: no type") = true := by
    decide +kernel
  obtain ⟨fs, run, holds⟩ := reached_of_after ended (by simp)
  refine ⟨fs, run, ?_⟩
  split at holds
  · cases holds
  · rename_i reason next stopped
    exact ⟨next, by rw [stopped, of_decide_eq_true holds]⟩

end Xv6Dedup.Tree
