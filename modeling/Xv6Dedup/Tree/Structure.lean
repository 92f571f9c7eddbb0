import Xv6Dedup.Tree.Shape

/-!
# The live directories are a tree

From the image of `mkfs` on, as long as no link count wraps around, every
directory under the root is reached in one way only, and its first two entries
name itself and its parent.
-/

set_option autoImplicit false

namespace Xv6Dedup.Tree

open Function Program

/-! ## Paths of names -/

/-- The inode that is reached from the root by names other than the first two of
a directory. -/
inductive Leads (nodes : Nat → Node) : List (List Byte) → Nat → Prop
  | root : Leads nodes [] ROOTINO
  | entry {names : List (List Byte)} {d : Nat} {entry : Entry} : Leads nodes names d →
      (nodes d).type = T_DIR → entry ∈ (nodes d).entries → entry.inum ≠ 0 → entry.name ≠ dot →
      entry.name ≠ dotdot → Leads nodes (names ++ [entry.name]) entry.inum

def label (nodes : Nat → Node) (place : Place) : List Byte :=
  ((nodes place.1).entries[place.2]?.map (·.name)).getD []

section Paths

variable {nodes : Nat → Node} {names : List (List Byte)} {d i : Nat}

section

variable (dotted : Dotted nodes)
include dotted

theorem place_of_entry {entry : Entry} (directory : (nodes d).type = T_DIR)
    (member : entry ∈ (nodes d).entries) (used : entry.inum ≠ 0) (notSelf : entry.name ≠ dot)
    (notUp : entry.name ≠ dotdot) :
    ∃ k, label nodes (d, k) = entry.name ∧ (shape nodes).target (d, k) = some entry.inum := by
  obtain ⟨k, read⟩ := List.getElem?_of_mem member
  have past := (dotted.folder d directory).past read notSelf notUp
  refine ⟨k, ?_, child_eq_some.mpr ⟨directory, past, entry, read, rfl, used⟩⟩
  rw [label, read]
  rfl

theorem leads_of_target {k : Nat} (leads : Leads nodes names d) (named : (shape nodes).target (d, k) = some i) :
    Leads nodes (names ++ [label nodes (d, k)]) i := by
  obtain ⟨directory, past, entry, read, rfl, used⟩ := child_eq_some.mp named
  have positive : d ≠ 0 := Nat.ne_of_gt (dotted.inside d (by rw [directory]; decide)).1
  obtain ⟨notSelf, notUp⟩ := (dotted.folder d directory).plain positive past read used
  have last : label nodes (d, k) = entry.name := by
    rw [label, read]
    rfl
  rw [last]
  exact .entry leads directory (List.mem_of_getElem? read) used notSelf notUp

theorem reach_iff_leads : Reach nodes i ↔ ∃ names, Leads nodes names i := by
  constructor
  · intro reach
    induction reach with
    | root => exact ⟨[], .root⟩
    | @step place item _ named ih =>
      obtain ⟨names, leads⟩ := ih
      exact ⟨_, leads_of_target dotted leads named⟩
  · intro leads
    obtain ⟨names, leads⟩ := leads
    induction leads with
    | root => exact .root
    | @entry names d entry _ directory member used notSelf notUp ih =>
      obtain ⟨k, _, named⟩ := place_of_entry dotted directory member used notSelf notUp
      have step : Reach nodes entry.inum := .step ih named
      exact step

theorem Leads.walk (leads : Leads nodes names i) : ∃ path, Hierarchy.Walk Prod.fst ROOTINO (shape nodes) path i ∧
      names = (path.map (label nodes)).reverse := by
  induction leads with
  | root => exact ⟨[], .root, rfl⟩
  | @entry names d entry _ directory member used notSelf notUp ih =>
    obtain ⟨path, walk, same⟩ := ih
    obtain ⟨k, last, named⟩ := place_of_entry dotted directory member used notSelf notUp
    have step : Hierarchy.Walk Prod.fst ROOTINO (shape nodes) ((d, k) :: path) entry.inum :=
      .step walk named
    refine ⟨(d, k) :: path, step, ?_⟩
    rw [List.map_cons, List.reverse_cons, last, same]

theorem Leads.unique (sound : Sound nodes) {other : List (List Byte)}
    (leads : Leads nodes names i) (again : Leads nodes other i)
    (directory : (nodes i).type = T_DIR) : other = names := by
  obtain ⟨path, walk, rfl⟩ := leads.walk dotted
  obtain ⟨second, walkAgain, rfl⟩ := again.walk dotted
  rw [walk.unique sound walkAgain (decide_eq_true directory)]

end

theorem parent_of_up {up : Nat} (read : (nodes d).entries[1]? = some ⟨up, dotdot⟩) : (shape nodes).parent d = up := by
  simp only [shape, read, Option.map_some, Option.getD_some]

end Paths

/-! ## What the calls keep -/

/-- The state between calls while no link count has wrapped around. -/
structure Fs.Formed (fs : Fs) : Prop extends fs.Settled where
  dotted : Dotted fs.nodes
  sound : Sound fs.nodes

def Fs.Calm (fs : Fs) : Prop := ∀ i, (fs.nodes i).nlink + 1 < 2 ^ 16

section Steps

variable {nodes edited after : Nat → Node} {Parent : Nat → Prop} {users : Nat → Nat}

theorem entered_of_found {dp position : Nat} {entry : Entry} (dotted : Dotted nodes)
    (directory : (nodes dp).type = T_DIR)
    (found : (nodes dp).entries[position]? = some entry) (present : entry.inum ≠ 0)
    (plain : ¬ (entry.name = dot ∨ entry.name = dotdot)) : Entered nodes dp position entry :=
  ⟨directory, found, present, (dotted.folder dp directory).past found
    (fun same => plain (.inl same)) fun same => plain (.inr same)⟩

theorem Edit.dotted (edit : Edit nodes Parent edited) (dotted : Dotted nodes)
    (root : (nodes ROOTINO).type = T_DIR) : Dotted edited := by
  cases edit with
  | same => exact dotted
  | node _ room typed free positive inside => exact dotted.addNode room free positive inside root
  | link _ room allocated file => exact dotted.addLink room
  | unlink _ directory found present plain allocated linked empty =>
    exact dotted.removeLink (entered_of_found dotted directory found present plain)

theorem Room.holder {dp : Nat} {name : List Byte} (room : Room nodes dp name) :
    (shape nodes).folder dp = true := decide_eq_true room.directory

theorem names_nothing {i : Nat}
    (empty : (nodes i).type = T_DIR → (nodes i).isEmpty = true) (place : Place) (child : Nat)
    (named : (shape nodes).target place = some child) : place.1 ≠ i := by
  intro same
  obtain ⟨directory, past, entry, read, inum, used⟩ := child_eq_some.mp named
  rw [same] at directory read
  have entered : Entered nodes i place.2 entry := ⟨directory, read, inum ▸ used, past⟩
  exact entered.not_empty (empty directory)

theorem Edit.change (edit : Edit nodes Parent edited) (dotted : Dotted nodes)
    (sound : Sound nodes) (calm : ∀ i, (nodes i).nlink + 1 < 2 ^ 16) :
    Hierarchy.Change slots Prod.fst Parent (shape nodes) (shape edited) := by
  cases edit with
  | same => exact .same
  | node parent room typed free positive inside =>
    exact .added (addNode_added dotted room free typed positive (calm _)) (vacancy_slot dotted room)
      vacancy_target room.holder parent fun live => live free
  | link parent room allocated file =>
    exact .linked (addLink_linked dotted room allocated (calm _)) (vacancy_slot dotted room)
      vacancy_target room.holder parent allocated (decide_eq_false file)
  | @unlink dp position entry _ directory found present plain allocated linked empty =>
    have entered := entered_of_found dotted directory found present plain
    have holder (isDirectory : (nodes entry.inum).type = T_DIR) : (nodes dp).nlink ≠ 0 :=
      sound.holder_links entered.target (decide_eq_true isDirectory)
    exact .removed (removeLink_removed entered (entered.apart empty) linked holder
      fun i => Nat.lt_of_succ_lt (calm i)) entered.target (names_nothing empty)

theorem Sweeps.sound (swept : Sweeps users nodes after) (sound : Sound nodes) : Sound after := by
  refine sound.freed (sweeps_freed swept) fun i changed => ?_
  rcases swept i with same | ⟨free, _⟩
  · exact absurd same changed
  · simp only [shape, free]

theorem recounted_data (nodes : Nat → Node) (i : Nat) (data : List Byte) :
    Recounted nodes (update nodes i { nodes i with data := data }) := by
  refine ⟨fun j => ?_, fun j => ?_⟩
  · by_cases same : j = i
    · rw [same, update_self]
    · rw [update_of_ne same]
  · by_cases same : j = i
    · rw [same, update_self]
    · rw [update_of_ne same]

theorem shape_data (nodes : Nat → Node) (i : Nat) (data : List Byte) :
    shape (update nodes i { nodes i with data := data }) = shape nodes := by
  have same := recounted_data nodes i data
  have links (j : Nat) : (update nodes i { nodes i with data := data } j).nlink = (nodes j).nlink := by
    by_cases same : j = i
    · rw [same, update_self]
    · rw [update_of_ne same]
  have target := same.target
  simp only [shape] at target ⊢
  simp only [same.type, same.entries, links, target]

end Steps

/-! ## The image of mkfs -/

structure Acceptable (contents : List (List Byte × List Byte)) : Prop where
  fits : contents.length + 2 ≤ NINODES
  distinct : (contents.map (·.1)).Nodup
  plain : ∀ file ∈ contents, file.1 ≠ dot ∧ file.1 ≠ dotdot

section Image

variable {contents : List (List Byte × List Byte)} {i k : Nat} {entry : Entry}

theorem image_root : image contents ROOTINO = {
    type := T_DIR
    nlink := 1
    entries := ⟨ROOTINO, dot⟩ :: ⟨ROOTINO, dotdot⟩ :: (contents.mapIdx (fun k file => ⟨ROOTINO + 1 + k, file.1⟩) ++
        List.replicate (32 - (2 + contents.length) % 32) ⟨0, []⟩) } := rfl

theorem image_file (past : 2 ≤ i) : image contents i =
    match contents[i - (ROOTINO + 1)]? with
    | some file => { type := T_FILE, nlink := 1, data := file.2 }
    | none => {} := by
  exact (if_neg (by omega)).trans (if_neg (by simp only [ROOTINO]; omega))

theorem image_types : (image contents i).type ≠ 0 ↔ 0 < i ∧ i < contents.length + 2 := by
  rcases Nat.lt_or_ge i 2 with small | past
  · rcases Nat.lt_or_ge i 1 with zero | one
    · obtain rfl : i = 0 := by omega
      exact ⟨fun allocated => absurd rfl allocated, fun inside => absurd inside.1 (by decide)⟩
    · obtain rfl : i = ROOTINO := by simp only [ROOTINO]; omega
      exact ⟨fun _ => ⟨by decide, by simp only [ROOTINO]; omega⟩, fun _ => (by decide : T_DIR ≠ 0)⟩
  · rw [image_file past]
    have index : i - (ROOTINO + 1) < contents.length ↔ i < contents.length + 2 := by
      simp only [ROOTINO]
      omega
    cases found : contents[i - (ROOTINO + 1)]? with
    | none =>
      have outside := List.getElem?_eq_none_iff.mp found
      refine ⟨fun allocated => absurd rfl allocated, fun inside => ?_⟩
      omega
    | some file =>
      obtain ⟨inside, _⟩ := List.getElem?_eq_some_iff.mp found
      exact ⟨fun _ => ⟨by omega, index.mp inside⟩, fun _ => (by decide : T_FILE ≠ 0)⟩

theorem image_folder : (image contents i).type = T_DIR ↔ i = ROOTINO := by
  refine ⟨fun directory => ?_, fun root => root ▸ rfl⟩
  have inside := image_types.mp (by rw [directory]; decide)
  by_contra other
  have past : 2 ≤ i := by
    simp only [ROOTINO] at other
    omega
  rw [image_file past] at directory
  split at directory
  · cases directory
  · cases directory

theorem root_entry (found : (image contents ROOTINO).entries[k]? = some entry)
    (used : entry.inum ≠ 0) : k = 0 ∧ entry = ⟨ROOTINO, dot⟩ ∨ k = 1 ∧ entry = ⟨ROOTINO, dotdot⟩ ∨
      ∃ file, 2 ≤ k ∧ contents[k - 2]? = some file ∧ entry = ⟨k, file.1⟩ := by
  rw [image_root] at found
  match k with
  | 0 => exact .inl ⟨rfl, (Option.some.inj found).symm⟩
  | 1 => exact .inr (.inl ⟨rfl, (Option.some.inj found).symm⟩)
  | k + 2 =>
    refine .inr (.inr ?_)
    simp only [List.getElem?_cons_succ] at found
    by_cases inside : k < contents.length
    · rw [List.getElem?_append_left (by simpa using inside), List.getElem?_mapIdx] at found
      obtain ⟨file, read, same⟩ := Option.map_eq_some_iff.mp found
      refine ⟨file, by omega, read, ?_⟩
      rw [← same]
      simp only [ROOTINO, Entry.mk.injEq, and_true]
      omega
    · rw [List.getElem?_append_right (by simpa using Nat.le_of_not_lt inside)] at found
      have free := List.eq_of_mem_replicate (List.mem_of_getElem? found)
      exact absurd (congrArg Entry.inum free) used

theorem image_target {d : Nat} : (shape (image contents)).target (d, k) = some i ↔
    d = ROOTINO ∧ k = i ∧ 2 ≤ i ∧ i < contents.length + 2 := by
  constructor
  · intro named
    obtain ⟨directory, past, entry, read, rfl, used⟩ := child_eq_some.mp named
    obtain rfl := image_folder.mp directory
    rcases root_entry read used with ⟨rfl, _⟩ | ⟨rfl, _⟩ | ⟨file, _, found, same⟩
    · omega
    · omega
    · have index : k - 2 < contents.length := (List.getElem?_eq_some_iff.mp found).1
      rw [same]
      refine ⟨rfl, rfl, past, ?_⟩
      exact (by omega : k < contents.length + 2)
  · intro place
    obtain ⟨rfl, rfl, past, inside⟩ := place
    obtain ⟨index, rfl⟩ : ∃ index, k = index + 2 := ⟨k - 2, by omega⟩
    have within : index < contents.length := by omega
    have directory : (image contents ROOTINO).type = T_DIR := rfl
    refine child_eq_some.mpr ⟨directory, past, ⟨ROOTINO + 1 + index, contents[index].1⟩, ?_, ?_, Nat.succ_ne_zero _⟩
    · rw [image_root]
      simp only [List.getElem?_cons_succ]
      rw [List.getElem?_append_left (by simpa using within), List.getElem?_mapIdx, List.getElem?_eq_getElem within]
      rfl
    · simp only [ROOTINO]
      omega

theorem image_dotted (acceptable : Acceptable contents) : Dotted (image contents) := by
  have fits := acceptable.fits
  refine ⟨fun d directory => ?_, fun i allocated => ?_, rfl⟩
  · obtain rfl := image_folder.mp directory
    refine ⟨rfl, ⟨ROOTINO, by decide, rfl⟩, ?_, ?_⟩
    · rw [image_root]
      simp only [List.length_cons, List.length_append, List.length_mapIdx, List.length_replicate,
        MAXENTRIES, NINODES] at fits ⊢
      omega
    · intro k l first second atFirst atSecond usedFirst usedSecond same
      have plain {file : List Byte × List Byte} {n : Nat} (found : contents[n]? = some file) :
          file.1 ≠ dot ∧ file.1 ≠ dotdot := acceptable.plain file (List.mem_of_getElem? found)
      rcases root_entry atFirst usedFirst with ⟨rfl, rfl⟩ | ⟨rfl, rfl⟩ | ⟨file, two, found, rfl⟩
      · rcases root_entry atSecond usedSecond with ⟨rfl, _⟩ | ⟨rfl, rfl⟩ | ⟨other, _, again, rfl⟩
        · rfl
        · exact absurd same (by decide)
        · exact absurd same.symm (plain again).1
      · rcases root_entry atSecond usedSecond with ⟨rfl, rfl⟩ | ⟨rfl, _⟩ | ⟨other, _, again, rfl⟩
        · exact absurd same (by decide)
        · rfl
        · exact absurd same.symm (plain again).2
      · rcases root_entry atSecond usedSecond with ⟨_, rfl⟩ | ⟨_, rfl⟩ | ⟨other, past, again, rfl⟩
        · exact absurd same (plain found).1
        · exact absurd same (plain found).2
        · have names : (contents.map (·.1))[k - 2]? = (contents.map (·.1))[l - 2]? := by
            rw [List.getElem?_map, List.getElem?_map, found, again]
            exact congrArg some same
          have inside := (List.getElem?_eq_some_iff.mp found).1
          have index := (List.getElem?_inj (by simpa using inside) acceptable.distinct).mp names
          omega
  · have inside := image_types.mp allocated
    exact ⟨inside.1, by omega⟩

theorem image_links (allocated : (image contents i).type ≠ 0) : (image contents i).nlink = 1 := by
  cases image_cases contents i with
  | inl free => exact absurd (congrArg Node.type free) allocated
  | inr linked => exact linked

theorem image_count (acceptable : Acceptable contents) : (shape (image contents)).count slots
    Prod.fst i = if 2 ≤ i ∧ i < contents.length + 2 then 1 else 0 := by
  have inners : Sharing.users slots ((shape (image contents)).inner Prod.fst) (some i) = 0 := by
    refine Nat.eq_zero_of_not_pos fun used => ?_
    obtain ⟨place, _, inner⟩ := Sharing.users_pos_iff.mp used
    obtain ⟨child, named, isFolder, _⟩ := Hierarchy.inner_eq_some.mp inner
    have past := (image_target.mp named).2.2.1
    have isRoot := image_folder.mp (of_decide_eq_true isFolder)
    simp only [ROOTINO] at isRoot
    omega
  unfold Hierarchy.Shape.count
  rw [inners, Nat.add_zero]
  have fits := acceptable.fits
  split
  · rename_i inside
    unfold Sharing.users
    rw [Finset.card_eq_one]
    refine ⟨(ROOTINO, i), Finset.ext fun place => ?_⟩
    rw [Finset.mem_filter, Finset.mem_singleton]
    constructor
    · intro found
      obtain ⟨root, same, _⟩ := image_target.mp found.2
      exact Prod.ext root same
    · intro same
      rw [same]
      refine ⟨mem_slots.mpr ⟨by decide, ?_⟩, image_target.mpr ⟨rfl, rfl, inside⟩⟩
      simp only [NINODES, MAXENTRIES] at fits ⊢
      omega
  · rename_i outside
    refine Nat.eq_zero_of_not_pos fun used => ?_
    obtain ⟨place, _, named⟩ := Sharing.users_pos_iff.mp used
    exact outside (image_target.mp named).2.2

theorem image_exact (acceptable : Acceptable contents) : Exact (image contents) := by
  intro i live
  have inside := image_types.mp live
  rw [image_count acceptable]
  change _ = (image contents i).nlink
  rw [image_links live]
  by_cases root : i = ROOTINO
  · rw [if_neg (by simp only [root, ROOTINO]; omega), if_pos root]
  · rw [if_pos (by simp only [ROOTINO] at root; omega), if_neg root]

theorem image_sound (acceptable : Acceptable contents) : Sound (image contents) := by
  have fits := acceptable.fits
  constructor
  · rfl
  · intro i isFolder
    obtain rfl := image_folder.mp (of_decide_eq_true isFolder)
    exact (by decide : T_DIR ≠ 0)
  · intro place i named
    obtain ⟨root, same, past, inside⟩ := image_target.mp named
    refine mem_slots.mpr ⟨?_, ?_⟩
    · rw [root]
      decide
    · simp only [NINODES, MAXENTRIES] at fits ⊢
      omega
  · intro place i named
    rw [(image_target.mp named).1]
    rfl
  · intro place i named
    obtain ⟨_, _, past, inside⟩ := image_target.mp named
    exact image_types.mpr ⟨by omega, inside⟩
  · intro place i named root
    have past := (image_target.mp named).2.2.1
    simp only [root, ROOTINO] at past
    omega
  · intro place other i named again _
    obtain ⟨root, same, _⟩ := image_target.mp named
    obtain ⟨otherRoot, otherSame, _⟩ := image_target.mp again
    exact Prod.ext (root.trans otherRoot.symm) (same.trans otherSame.symm)
  · intro place i named isFolder
    have isRoot := image_folder.mp (of_decide_eq_true isFolder)
    have past := (image_target.mp named).2.2.1
    simp only [isRoot, ROOTINO] at past
    omega
  · intro i
    by_cases live : (shape (image contents)).live i
    · exact Nat.le_of_eq (image_exact acceptable i live)
    · have outside : ¬ (0 < i ∧ i < contents.length + 2) := fun inside =>
        live (image_types.mpr inside)
      rw [image_count acceptable, if_neg (by omega), if_neg]
      · exact Nat.zero_le _
      · simp only [ROOTINO]
        omega

theorem image_attached : Attached (image contents) := by
  intro place i named
  rw [(image_target.mp named).1]
  exact .root

theorem boot_formed (acceptable : Acceptable contents) : (Fs.boot contents).Formed :=
  ⟨boot_settled, image_dotted acceptable, image_sound acceptable⟩

end Image

section Runs

variable {fs next : Fs} {pid : Fin NPROC} {call : Call} {result : Int}

theorem Fs.Formed.step (formed : fs.Formed) (calm : fs.Calm) (step : fs.Step pid call result next) : next.Formed := by
  obtain ⟨settled, outcome⟩ := formed.toSettled.step step
  have root : (fs.nodes ROOTINO).type = T_DIR := of_decide_eq_true formed.sound.top
  rcases outcome with ⟨_, edited, edit, swept⟩ | ⟨_, _, _, i, data, _, nodes⟩
  · have sound := formed.sound.change (edit.change formed.dotted formed.sound calm)
    refine ⟨settled, (edit.dotted formed.dotted root).swept swept ?_, swept.sound sound⟩
    exact sound.reach_links .root
  · refine ⟨settled, ?_, ?_⟩
    · rw [nodes]
      exact (recounted_data fs.nodes i data).dotted formed.dotted
    · rw [nodes, Sound, shape_data]
      exact formed.sound

/-- Some call returns that started with room for one more link of any inode. -/
def Fs.CalmNext (fs next : Fs) : Prop := fs.Calm ∧ fs.Next next

theorem formed_of_run {contents : List (List Byte × List Byte)} (acceptable : Acceptable contents)
    (run : Relation.ReflTransGen Fs.CalmNext (Fs.boot contents) fs) : fs.Formed := by
  induction run with
  | refl => exact boot_formed acceptable
  | tail _ last ih =>
    obtain ⟨calm, pid, call, result, step⟩ := last
    exact ih.step calm step

end Runs

theorem boot_calm (contents : List (List Byte × List Byte)) : (Fs.boot contents).Calm := by
  intro i
  change (image contents i).nlink + 1 < 2 ^ 16
  cases image_cases contents i with
  | inl free =>
    rw [free]
    decide
  | inr linked =>
    rw [linked]
    decide

/-- The path `a`. -/
abbrev pathA : List Byte := [97]

theorem acceptable_nil : Acceptable [] := ⟨by decide, List.nodup_nil, nofun⟩

/-- A directory is made in an empty file system. -/
theorem boot_mkdir : ∃ result fs, (Fs.boot []).Step initproc (.mkdir pathA) result fs ∧ (fs.nodes 2).type = T_DIR := by
  have made : (match perform initproc (.mkdir pathA) (Fs.boot [], ()) with
      | .ok _ next => decide ((next.1.nodes 2).type = T_DIR)
      | .error _ _ => false) = true := by
    decide +kernel
  split at made
  · rename_i result next returned
    exact ⟨result, next.1, ⟨nofun, returned⟩, of_decide_eq_true made⟩
  · cases made

end Xv6Dedup.Tree
