import Xv6Dedup.System.References
import Xv6Dedup.Tree.Model

/-!
# References and links keep inodes

Reference counts are those of open files, working directories and the running
call. An inode without links stays allocated while someone refers to it, and no
longer.
-/

set_option autoImplicit false

namespace Xv6Dedup.Tree

open Function Program

/-- The open files and working directories that refer to the inode. -/
def Fs.users (fs : Fs) (inum : Nat) : Nat :=
  Sharing.users Finset.univ (fun f => (fs.files f).map (·.inum)) (some inum) +
    Sharing.users Finset.univ (fun pid => (fs.procs pid).map (·.cwd)) (some inum)

/-- The state while a call holds references: those in `anchors` last, those in
`walk` are only used to pass an inode. -/
structure Held (anchors walk : List Nat) (fs : Fs) : Prop where
  refs : ∀ i, fs.ref i = anchors.count i + walk.count i + fs.users i
  typed : ∀ i, 0 < fs.users i → (fs.nodes i).type ≠ 0
  sure : ∀ i, fs.valid i = true → 0 < fs.ref i → (fs.nodes i).type ≠ 0
  kept : ∀ i, (fs.nodes i).type ≠ 0 → (fs.nodes i).nlink = 0 → fs.valid i = true ∧ 0 < anchors.count i + fs.users i

/-- What a panic tells: a lock on a free inode that the lookup was `lost`, one of
`dirlink` that the directory was `full`. -/
structure Signs where
  lost : Prop
  full : Prop

structure Signs.Told (signs : Signs) (reason : Stop) : Prop where
  lost : reason = .panic "ilock: no type" → signs.lost
  full : reason = .panic "dirlink" → signs.full
  linked : reason ≠ .panic "create: dirlink"

/-- What holds if the program returns, and what a panic tells. -/
abbrev Gives {α : Type} (signs : Signs) (program : TreeM α) (fs : Fs) (Post : α → Fs → Prop) :
    Prop :=
  Wp (fun _ : Unit => True) program fs Post fun reason _ => signs.Told reason

theorem otherPanic {signs : Signs} {message : String}
    (other : message ∉ ["ilock: no type", "dirlink", "create: dirlink"]) : signs.Told (.panic message) := by
  simp only [List.mem_cons, List.not_mem_nil, or_false, not_or] at other
  refine ⟨fun same => ?_, fun same => ?_, fun same => ?_⟩
  · exact absurd (Stop.panic.inj same) other.1
  · exact absurd (Stop.panic.inj same) other.2.1
  · exact absurd (Stop.panic.inj same) other.2.2

/-- The inodes that a lookup from `source` may come to. -/
inductive Seen (nodes : Nat → Node) (source : Nat) : Nat → Prop
  | source : Seen nodes source source
  | entry {i : Nat} {entry : Entry} : Seen nodes source i → (nodes i).type = T_DIR →
      entry ∈ (nodes i).entries → entry.inum ≠ 0 → Seen nodes source entry.inum

theorem Seen.congr {nodes other : Nat → Node} {source i : Nat} (types : ∀ j, (other j).type = (nodes j).type)
    (entries : ∀ j, (other j).entries = (nodes j).entries) (seen : Seen other source i) : Seen nodes source i := by
  induction seen with
  | source => exact .source
  | entry _ directory member present ih =>
    exact .entry ih (types _ ▸ directory) (entries _ ▸ member) present

def Strays (nodes : Nat → Node) (source : Nat) : Prop :=
  ∃ i, Seen nodes source i ∧ (nodes i).type = 0

def origin (cwd : Nat) (path : List Byte) : Nat :=
  if path.head? = some slash then ROOTINO else cwd

structure SameUsers (fs next : Fs) : Prop where
  files : next.files = fs.files
  procs : next.procs = fs.procs

theorem SameUsers.refl (fs : Fs) : SameUsers fs fs := ⟨rfl, rfl⟩

theorem SameUsers.trans {fs middle next : Fs} (first : SameUsers fs middle)
    (second : SameUsers middle next) : SameUsers fs next :=
  ⟨second.files.trans first.files, second.procs.trans first.procs⟩

theorem SameUsers.users {fs next : Fs} (same : SameUsers fs next) : next.users = fs.users := by
  funext i
  rw [Fs.users, same.files, same.procs, Fs.users]

structure Passed (fs next : Fs) : Prop extends SameUsers fs next where
  nodes : next.nodes = fs.nodes

theorem Passed.refl (fs : Fs) : Passed fs fs := ⟨SameUsers.refl fs, rfl⟩

theorem Passed.trans {fs middle next : Fs} (first : Passed fs middle) (second : Passed middle next) : Passed fs next :=
  ⟨first.toSameUsers.trans second.toSameUsers, second.nodes.trans first.nodes⟩

section Holding

variable {fs next : Fs} {anchors walk : List Nat} {i : Nat} {signs : Signs}

@[simp] theorem setRef_same (count : Nat) : (fs.setRef i count).ref i = count :=
  update_self _ _ _

variable {j : Nat} {node : Node} {path : List Byte} {Full : Prop}

theorem setRef_other {count : Nat} (apart : j ≠ i) : (fs.setRef i count).ref j = fs.ref j :=
  update_of_ne apart _ _

@[simp] theorem setValid_same (valid : Bool) : (fs.setValid i valid).valid i = valid :=
  update_self _ _ _

theorem setValid_other {valid : Bool} (apart : j ≠ i) :
    (fs.setValid i valid).valid j = fs.valid j := update_of_ne apart _ _

@[simp] theorem setNode_same (node : Node) : (fs.setNode i node).nodes i = node :=
  update_self _ _ _

theorem setNode_other (apart : j ≠ i) : (fs.setNode i node).nodes j = fs.nodes j := update_of_ne apart _ _

section

variable (held : Held anchors walk fs)
include held

theorem Held.dup (used : 0 < fs.ref i) : Held anchors (i :: walk) (fs.setRef i (fs.ref i + 1)) := by
  constructor
  · intro j
    have before := held.refs j
    by_cases same : j = i
    · subst same
      rw [setRef_same, List.count_cons_self]
      exact (by omega : fs.ref j + 1 = anchors.count j + (walk.count j + 1) + fs.users j)
    · rw [setRef_other same, List.count_cons_of_ne (Ne.symm same)]
      exact before
  · exact held.typed
  · intro j valid positive
    by_cases same : j = i
    · subst same
      exact held.sure j valid used
    · rw [setRef_other same] at positive
      exact held.sure j valid positive
  · exact held.kept

theorem Held.fetch (unused : fs.ref i = 0) : Held anchors (i :: walk) ((fs.setRef i 1).setValid i false) := by
  constructor
  · intro j
    have before := held.refs j
    by_cases same : j = i
    · subst same
      rw [List.count_cons_self]
      exact (setRef_same 1).trans (by omega : 1 = anchors.count j + (walk.count j + 1) + fs.users j)
    · rw [List.count_cons_of_ne (Ne.symm same)]
      exact (setRef_other same).trans before
  · exact held.typed
  · intro j valid positive
    by_cases same : j = i
    · subst same
      rw [setValid_same] at valid
      cases valid
    · rw [setValid_other same] at valid
      exact held.sure j valid ((setRef_other same).symm.trans_gt positive)
  · intro j allocated unlinked
    obtain ⟨valid, positive⟩ := held.kept j allocated unlinked
    by_cases same : j = i
    · subst same
      have none := held.refs j
      omega
    · rw [setValid_other same]
      exact ⟨valid, positive⟩

theorem iget_held : Gives signs (iget i) fs fun _ next => Held anchors (i :: walk) next ∧ Passed fs next ∧
      ∀ j, fs.valid j = true → 0 < fs.ref j → next.valid j = true := by
  refine Wp.see (Wp.ite (fun used => ?_) fun unused => ?_)
  · exact Wp.change ⟨held.dup used, ⟨⟨rfl, rfl⟩, rfl⟩, fun j valid _ => valid⟩
  · refine Wp.ite (fun _ => Wp.throw (otherPanic (by decide))) fun _ => Wp.change ?_
    refine ⟨held.fetch (Nat.eq_zero_of_not_pos unused), ⟨⟨rfl, rfl⟩, rfl⟩, fun j valid used => ?_⟩
    have other : j ≠ i := fun same => unused (same ▸ used)
    rw [setValid_other other]
    exact valid

theorem idup_held (used : 0 < fs.users i) :
    Gives signs (idup i) fs fun _ next => Held anchors (i :: walk) next ∧ Passed fs next ∧
      ∀ j, fs.valid j = true → next.valid j = true := by
  have positive : 0 < fs.ref i := by
    rw [held.refs]
    exact Nat.add_pos_right _ used
  exact Wp.change ⟨held.dup positive, ⟨⟨rfl, rfl⟩, rfl⟩, fun _ => id⟩

end

theorem ilock_gives (lost : (fs.nodes i).type = 0 → signs.lost) : Gives signs (ilock i) fs fun _ next =>
    next = fs.setValid i true ∧ 0 < fs.ref i ∧ (fs.valid i = false → (fs.nodes i).type ≠ 0) := by
  refine Wp.see (Wp.ite (fun _ => Wp.throw (otherPanic (by decide))) fun used => ?_)
  have used : 0 < fs.ref i := by omega
  refine Wp.ite (fun valid => Wp.pure ⟨?_, used, fun wrong => ?_⟩) fun _ => Wp.set ?_
  · rw [Fs.setValid, ← valid, update_eq_self]
  · rw [valid] at wrong
    cases wrong
  · exact Wp.ite (fun free => Wp.throw ⟨fun _ => lost free, nofun, nofun⟩) fun typed =>
      Wp.pure ⟨rfl, used, fun _ => typed⟩

theorem Held.lock (held : Held anchors walk fs) (typed : (fs.nodes i).type ≠ 0) :
    Held anchors walk (fs.setValid i true) := by
  refine ⟨held.refs, held.typed, fun j valid positive => ?_, fun j allocated unlinked => ?_⟩
  · by_cases same : j = i
    · subst same
      exact typed
    · rw [setValid_other same] at valid
      exact held.sure j valid positive
  · obtain ⟨valid, positive⟩ := held.kept j allocated unlinked
    refine ⟨?_, positive⟩
    by_cases same : j = i
    · subst same
      exact setValid_same true
    · rw [setValid_other same]
      exact valid

structure Locked (fs next : Fs) (i : Nat) : Prop extends Passed fs next where
  valid : next.valid i = true
  stays : ∀ j, fs.valid j = true → next.valid j = true
  typed : (next.nodes i).type ≠ 0

theorem ilock_held (held : Held anchors walk fs) (lost : (fs.nodes i).type = 0 → signs.lost) :
    Gives signs (ilock i) fs fun _ next => Held anchors walk next ∧ Locked fs next i := by
  refine (ilock_gives lost).post fun _ next locked => ?_
  obtain ⟨rfl, used, typed⟩ := locked
  have typed : (fs.nodes i).type ≠ 0 := by
    cases valid : fs.valid i with
    | true => exact held.sure i valid used
    | false => exact typed valid
  refine ⟨held.lock typed, ⟨⟨⟨rfl, rfl⟩, rfl⟩, setValid_same true, fun j valid => ?_, typed⟩⟩
  by_cases same : j = i
  · subst same
    exact setValid_same true
  · rw [setValid_other same]
    exact valid

/-- What `iput` does. -/
def Fs.put (fs : Fs) (i : Nat) : Fs :=
  if fs.ref i = 1 ∧ fs.valid i = true ∧ (fs.nodes i).nlink = 0 then
    ((fs.setNode i {}).setValid i false).setRef i (fs.ref i - 1)
  else fs.setRef i (fs.ref i - 1)

theorem iput_gives : Gives signs (iput i) fs fun _ next => next = fs.put i := by
  refine Wp.see (Wp.bind ?_)
  unfold Fs.put
  by_cases frees : fs.ref i = 1 ∧ fs.valid i = true ∧ (fs.nodes i).nlink = 0
  · rw [if_pos frees]
    exact Wp.onlyIf (fun _ => Wp.change (Wp.change rfl)) fun keeps => absurd frees keeps
  · rw [if_neg frees]
    exact Wp.onlyIf (fun wrong => absurd wrong frees) fun _ => Wp.change rfl

theorem put_nodes (fs : Fs) (i : Nat) : (fs.put i).nodes = fs.nodes ∨
    (fs.put i).nodes = update fs.nodes i {} ∧ fs.ref i = 1 ∧ fs.valid i = true ∧ (fs.nodes i).nlink = 0 := by
  unfold Fs.put
  split
  · rename_i frees
    exact .inr ⟨rfl, frees⟩
  · exact .inl rfl

theorem Held.drop (refs : ∀ j, fs.ref j = anchors.count j + walk.count j + fs.users j +
      if j = i then 1 else 0) (typed : ∀ j, 0 < fs.users j → (fs.nodes j).type ≠ 0)
    (sure : ∀ j, fs.valid j = true → 0 < fs.ref j → (fs.nodes j).type ≠ 0)
    (kept : ∀ j, (fs.nodes j).type ≠ 0 → (fs.nodes j).nlink = 0 →
      fs.valid j = true ∧ 0 < anchors.count j + fs.users j) : Held anchors walk (fs.setRef i (fs.ref i - 1)) := by
  refine ⟨fun j => ?_, typed, fun j valid positive => ?_, kept⟩
  · have before := refs j
    by_cases same : j = i
    · subst same
      rw [if_pos rfl] at before
      rw [setRef_same]
      exact (by omega : fs.ref j - 1 = anchors.count j + walk.count j + fs.users j)
    · rw [if_neg same] at before
      rw [setRef_other same]
      exact before
  · by_cases same : j = i
    · subst same
      rw [setRef_same] at positive
      exact sure j valid (by omega)
    · rw [setRef_other same] at positive
      exact sure j valid positive

private theorem count_head (list : List Nat) : (i :: list).count j = list.count j + if j = i then 1 else 0 := by
  simp only [List.count_cons, beq_iff_eq, @eq_comm _ i j]

theorem Held.put_walk (held : Held anchors (i :: walk) fs) : Held anchors walk (fs.put i) ∧ Passed fs (fs.put i) ∧
      ∀ j, fs.valid j = true → (fs.put i).valid j = true := by
  have many : ¬ (fs.ref i = 1 ∧ fs.valid i = true ∧ (fs.nodes i).nlink = 0) := by
    intro frees
    obtain ⟨one, valid, unlinked⟩ := frees
    have positive := (held.kept i (held.sure i valid (by omega)) unlinked).2
    have count := held.refs i
    rw [List.count_cons_self] at count
    omega
  rw [Fs.put, if_neg many]
  refine ⟨.drop (fun j => ?_) held.typed held.sure held.kept, ⟨⟨rfl, rfl⟩, rfl⟩, fun _ => id⟩
  have before := held.refs j
  rw [count_head] at before
  omega

/-- The nodes after a call has dropped a reference: an inode may have been freed
that nobody refers to. -/
def Reclaimed (fs next : Fs) (i : Nat) : Prop :=
  next.nodes = fs.nodes ∨
    next.nodes = update fs.nodes i {} ∧ (fs.nodes i).nlink = 0 ∧ fs.users i = 0

theorem Held.anchored (held : Held (i :: anchors) [] fs) (j : Nat) :
    fs.ref j = anchors.count j + [].count j + fs.users j + if j = i then 1 else 0 := by
  have before := held.refs j
  rw [count_head] at before
  omega

theorem Held.free (held : Held (i :: anchors) [] fs)
    (frees : fs.ref i = 1 ∧ fs.valid i = true ∧ (fs.nodes i).nlink = 0) :
    Held anchors [] (((fs.setNode i {}).setValid i false).setRef i (fs.ref i - 1)) := by
  have alone := held.anchored i
  rw [if_pos rfl] at alone
  have nodes {j : Nat} (other : j ≠ i) :
      ((fs.setNode i {}).setValid i false).nodes j = fs.nodes j := setNode_other other
  refine Held.drop held.anchored (fun j used => ?_) (fun j valid positive => ?_) fun j allocated unlinked => ?_
  · have used : 0 < fs.users j := used
    have other : j ≠ i := by
      intro same
      subst same
      omega
    rw [nodes other]
    exact held.typed j used
  · have other : j ≠ i := by
      intro same
      subst same
      rw [setValid_same] at valid
      cases valid
    rw [setValid_other other] at valid
    rw [nodes other]
    exact held.sure j valid positive
  · have other : j ≠ i := by
      intro same
      subst same
      exact allocated (congrArg Node.type (setNode_same {}))
    rw [nodes other] at allocated unlinked
    rw [setValid_other other]
    obtain ⟨valid, positive⟩ := held.kept j allocated unlinked
    rw [List.count_cons_of_ne (Ne.symm other)] at positive
    exact ⟨valid, positive⟩

theorem Held.put_anchor (held : Held (i :: anchors) [] fs) :
    Held anchors [] (fs.put i) ∧ SameUsers fs (fs.put i) ∧ Reclaimed fs (fs.put i) i := by
  by_cases frees : fs.ref i = 1 ∧ fs.valid i = true ∧ (fs.nodes i).nlink = 0
  · have alone := held.anchored i
    rw [if_pos rfl] at alone
    rw [Fs.put, if_pos frees]
    exact ⟨held.free frees, ⟨rfl, rfl⟩, .inr ⟨rfl, frees.2.2, by omega⟩⟩
  · rw [Fs.put, if_neg frees]
    refine ⟨.drop held.anchored held.typed held.sure fun j allocated unlinked => ?_, ⟨rfl, rfl⟩, .inl rfl⟩
    obtain ⟨valid, positive⟩ := held.kept j allocated unlinked
    by_cases same : j = i
    · subst same
      have count := held.anchored j
      rw [if_pos rfl, List.count_nil] at count
      have several : fs.ref j ≠ 1 := fun one => frees ⟨one, valid, unlinked⟩
      exact ⟨valid, by omega⟩
    · rw [List.count_cons_of_ne (Ne.symm same)] at positive
      exact ⟨valid, positive⟩

theorem Held.permute {other : List Nat} (held : Held anchors walk fs) (same : walk.Perm other) :
    Held anchors other fs :=
  { held with refs := fun j => same.count_eq j ▸ held.refs j }

theorem Held.permuteAnchors {other : List Nat} (held : Held anchors walk fs)
    (same : anchors.Perm other) : Held other walk fs :=
  { held with
    refs := fun j => same.count_eq j ▸ held.refs j
    kept := fun j => same.count_eq j ▸ held.kept j }

theorem Held.anchor (held : Held anchors (i :: walk) fs) : Held (i :: anchors) walk fs := by
  refine ⟨fun j => ?_, held.typed, held.sure, fun j allocated unlinked => ?_⟩
  · have before := held.refs j
    simp only [List.count_cons] at before ⊢
    omega
  · obtain ⟨valid, positive⟩ := held.kept j allocated unlinked
    refine ⟨valid, ?_⟩
    simp only [List.count_cons]
    omega

private theorem Held.replace (held : Held anchors walk fs) (typed : node.type = (fs.nodes i).type)
    (kept : node.type ≠ 0 → node.nlink = 0 → fs.valid i = true ∧ 0 < anchors.count i + fs.users i) :
    Held anchors walk (fs.setNode i node) := by
  have types (j : Nat) : ((fs.setNode i node).nodes j).type = (fs.nodes j).type := by
    by_cases same : j = i
    · subst same
      rw [setNode_same, typed]
    · rw [setNode_other same]
  refine ⟨held.refs, fun j used => ?_, fun j sure positive => ?_, fun j allocated unlinked => ?_⟩
  · rw [types]
    exact held.typed j used
  · rw [types]
    exact held.sure j sure positive
  · by_cases same : j = i
    · subst same
      rw [setNode_same] at allocated unlinked
      exact kept allocated unlinked
    · rw [setNode_other same] at allocated unlinked
      exact held.kept j allocated unlinked

theorem Held.setNode (held : Held anchors walk fs) (member : i ∈ anchors)
    (valid : fs.valid i = true) (typed : node.type = (fs.nodes i).type) : Held anchors walk (fs.setNode i node) :=
  held.replace typed fun _ _ => ⟨valid, Nat.add_pos_left (List.count_pos_iff.mpr member) _⟩

theorem Held.rewrite (held : Held anchors walk fs) (typed : node.type = (fs.nodes i).type)
    (links : node.nlink = (fs.nodes i).nlink) : Held anchors walk (fs.setNode i node) :=
  held.replace typed fun allocated unlinked => held.kept i (typed ▸ allocated) (links ▸ unlinked)

/-! ## Paths -/

theorem iput_walk (held : Held anchors (i :: walk) fs) : Gives signs (iput i) fs fun _ next =>
    Held anchors walk next ∧ Passed fs next ∧ ∀ j, fs.valid j = true → next.valid j = true := by
  refine iput_gives.post fun _ next put => ?_
  subst put
  exact held.put_walk

theorem dirlookup_held {name : List Byte} (held : Held anchors walk fs) :
    Gives signs (dirlookup i name) fs fun found next => (fs.nodes i).type = T_DIR ∧
      match found with
      | none => next = fs ∧ (fs.nodes i).entries[(fs.nodes i).position name]? = none
      | some (inum, position) => Held anchors (inum :: walk) next ∧ Passed fs next ∧
          (∀ j, fs.valid j = true → 0 < fs.ref j → next.valid j = true) ∧
          position = (fs.nodes i).position name ∧
            ∃ entry, (fs.nodes i).entries[position]? = some entry ∧ entry.inum = inum := by
  refine Wp.peek (Wp.ite (fun _ => Wp.throw (otherPanic (by decide))) fun directory => ?_)
  have directory := not_not.mp directory
  cases present : (fs.nodes i).entries[(fs.nodes i).position name]? with
  | none => exact Wp.pure ⟨directory, rfl, rfl⟩
  | some entry =>
    refine Wp.seq (iget_held held) fun _ next got => Wp.pure ?_
    exact ⟨directory, got.1, got.2.1, got.2.2, rfl, entry, present, rfl⟩

theorem position_entry {name : List Byte} {entry : Entry} (found : node.entries[node.position name]? = some entry) :
    entry ∈ node.entries ∧ entry.inum ≠ 0 ∧ entry.name = name := by
  obtain ⟨inside, rfl⟩ := List.getElem?_eq_some_iff.mp found
  have named := List.findIdx_getElem (w := inside)
  exact ⟨List.mem_of_getElem? found, of_decide_eq_true named⟩

/-- The result of a lookup: the inode, if any, with a reference. -/
structure Found (anchors walk : List Nat) (fs : Fs) (source : Nat) (found : Option Nat)
    (next : Fs) : Prop extends Passed fs next where
  held : Held anchors (found.toList ++ walk) next
  seen : ∀ ip ∈ found, Seen fs.nodes source ip
  stays : ∀ j ∈ anchors, fs.valid j = true → next.valid j = true

theorem Found.after {middle : Fs} {source : Nat} {found : Option Nat}
    (second : Found anchors walk middle source found next) (first : Passed fs middle)
    (stays : ∀ j ∈ anchors, fs.valid j = true → middle.valid j = true) :
    Found anchors walk fs source found next :=
  { toPassed := first.trans second.toPassed
    held := second.held
    seen := first.nodes ▸ second.seen
    stays := fun j member valid => second.stays j member (stays j member valid) }

/-- `ilock` of the inode found. -/
theorem Found.ilock {source : Nat} (found : Found anchors walk fs source (some i) next)
    (lost : Strays fs.nodes source → signs.lost) : Gives signs (ilock i) next fun _ locked =>
      Held anchors (i :: walk) locked ∧ Locked next locked i ∧ Passed fs locked := by
  have listed : Held anchors (i :: walk) next := found.held
  refine (ilock_held listed fun free => lost ⟨i, found.seen i rfl, found.nodes ▸ free⟩).post fun _ _ lock => ?_
  exact ⟨lock.1, lock.2, found.toPassed.trans lock.2.toPassed⟩

theorem Held.anchor_ref (held : Held anchors walk fs) (member : i ∈ anchors) : 0 < fs.ref i := by
  have count := List.count_pos_iff.mpr member
  rw [held.refs]
  omega

/-- Where the loop of `namex` comes to. -/
def leads (nodes : Nat → Node) (parent : Bool) : (count ip : Nat) → List Byte → Option (Nat × List Byte)
  | 0, _, _ => none
  | count + 1, ip, path =>
    match skipelem path with
    | none => if parent then none else some (ip, [])
    | some (name, rest) =>
      if (nodes ip).type ≠ T_DIR then none
      else if parent = true ∧ rest = [] then some (ip, name)
      else
        match (nodes ip).entries[(nodes ip).position name]? with
        | none => none
        | some entry => leads nodes parent count entry.inum rest

theorem namexFrom_held {parent : Bool} (count : Nat) {source ip : Nat}
    (enough : path.length < count) (held : Held anchors (ip :: walk) fs) (seen : Seen fs.nodes source ip) :
    Gives ⟨Strays fs.nodes source, Full⟩ (namexFrom parent count ip path) fs fun found next =>
      Found anchors walk fs source (found.map (·.1)) next ∧ found = leads fs.nodes parent count ip path := by
  induction count generalizing fs ip path with
  | zero => exact absurd enough (Nat.not_lt_zero _)
  | succ count ih =>
    simp only [namexFrom]
    cases next : skipelem path with
    | none =>
      refine Wp.ite (fun isParent => Wp.seq (iput_walk held) fun _ last put => Wp.pure ⟨?_, ?_⟩)
        fun plain => Wp.pure ⟨?_, ?_⟩
      · exact ⟨put.2.1, put.1, fun _ same => (nomatch same), fun j _ => put.2.2 j⟩
      · simp [leads, next, isParent]
      · exact ⟨Passed.refl fs, held, fun _ same => Option.some.inj same ▸ seen, fun _ _ => id⟩
      · simp [leads, next, plain]
    | some element =>
      have shorter := skipelem_shorter next
      refine Wp.seq (ilock_held held fun free => ⟨ip, seen, free⟩) fun _ locked lock => ?_
      obtain ⟨lockHeld, lock⟩ := lock
      refine Wp.peek ?_
      have dropped (ends : leads fs.nodes parent (count + 1) ip path = none) :
          Gives ⟨Strays fs.nodes source, Full⟩ (do iput ip; pure none) locked
            fun (found : Option (Nat × List Byte)) next =>
              Found anchors walk fs source (found.map (·.1)) next ∧
                found = leads fs.nodes parent (count + 1) ip path := by
        refine Wp.seq (iput_walk lockHeld) fun _ last put => Wp.pure ⟨?_, ends.symm⟩
        exact ⟨lock.toPassed.trans put.2.1, put.1, fun _ same => (nomatch same),
          fun j _ valid => put.2.2 j (lock.stays j valid)⟩
      rw [lock.nodes]
      refine Wp.ite (fun file => dropped (by simp [leads, next, file])) fun directory => ?_
      refine Wp.ite (fun last => Wp.pure ⟨?_, ?_⟩) fun further => ?_
      · exact ⟨lock.toPassed, lockHeld, fun _ same => Option.some.inj same ▸ seen, fun j _ => lock.stays j⟩
      · simp [leads, next, not_not.mp directory, last]
      refine Wp.seq (dirlookup_held lockHeld) fun found middle looked => ?_
      cases found with
      | none =>
        obtain ⟨_, rfl, absent⟩ := looked
        rw [lock.nodes] at absent
        exact dropped (by simp only [leads, next, if_neg directory, if_neg further, absent])
      | some found =>
        obtain ⟨inum, position⟩ := found
        obtain ⟨isDirectory, outcome, passed, stays, rfl, entry, present, rfl⟩ := looked
        have swapped : Held anchors (ip :: entry.inum :: walk) middle :=
          outcome.permute (List.Perm.swap _ _ _)
        refine Wp.seq (iput_walk swapped) fun _ last put => ?_
        have still := (lock.toPassed.trans passed).trans put.2.1
        obtain ⟨member, positive, _⟩ := position_entry present
        rw [lock.nodes] at isDirectory member present
        have onward : Seen last.nodes source entry.inum :=
          still.nodes ▸ .entry seen isDirectory member positive
        have walked := ih (Nat.lt_of_lt_of_le shorter (Nat.le_of_lt_succ enough)) put.1 onward
        rw [still.nodes] at walked
        refine walked.post fun _ _ result => ⟨result.1.after still fun j member valid => ?_, ?_⟩
        · exact put.2.2 j (stays j (lock.stays j valid) (lockHeld.anchor_ref member))
        · simp only [leads, next, if_neg directory, if_neg further, present]
          exact result.2

/-- The signs of a lookup; the path names an entry of a full directory. -/
abbrev Search (nodes : Nat → Node) (cwd : Nat) (path : List Byte) : Signs where
  lost := Strays nodes (origin cwd path)
  full := ∃ dp name, leads nodes true (path.length + 1) (origin cwd path) path = some (dp, name) ∧
    MAXENTRIES ≤ (nodes dp).vacancy

theorem namex_held {cwd : Nat} {parent : Bool} (held : Held anchors walk fs) (used : 0 < fs.users cwd) :
    Gives ⟨Strays fs.nodes (origin cwd path), Full⟩ (namex cwd path parent) fs fun found next =>
      Found anchors walk fs (origin cwd path) (found.map (·.1)) next ∧
        found = leads fs.nodes parent (path.length + 1) (origin cwd path) path := by
  have starts : Gives ⟨Strays fs.nodes (origin cwd path), Full⟩ (start cwd path) fs fun ip next =>
      Held anchors (ip :: walk) next ∧ ip = origin cwd path ∧ Passed fs next ∧
        ∀ j, fs.valid j = true → 0 < fs.ref j → next.valid j = true := by
    refine Wp.ite (fun absolute => ?_) fun relative => ?_
    · refine Wp.seq (iget_held held) fun _ _ got => Wp.pure ⟨got.1, ?_, got.2⟩
      rw [origin, if_pos absolute]
    · refine Wp.seq (idup_held held used) fun _ _ got => Wp.pure ⟨got.1, ?_, got.2.1, ?_⟩
      · rw [origin, if_neg relative]
      · exact fun j valid _ => got.2.2 j valid
  refine Wp.seq starts fun ip middle got => ?_
  obtain ⟨middleHeld, rfl, passed, stays⟩ := got
  rw [← passed.nodes]
  refine (namexFrom_held _ (Nat.lt_succ_self path.length) middleHeld .source).post
    fun _ _ result => ⟨result.1.after passed fun j member valid => ?_, result.2⟩
  exact stays j valid (held.anchor_ref member)

theorem namei_held {cwd : Nat} (held : Held anchors walk fs) (used : 0 < fs.users cwd) :
    Gives ⟨Strays fs.nodes (origin cwd path), Full⟩ (namei cwd path) fs (Found anchors walk fs (origin cwd path)) :=
  Wp.seq (namex_held held used) fun _ _ found => Wp.pure found.1

end Holding

end Xv6Dedup.Tree
