import Xv6Dedup.Base.Hierarchy
import Xv6Dedup.Tree.Lifetime

/-!
# The directories form a tree

The inodes as a hierarchy: the places are the positions in directories, past the
entries for the directory itself and its parent. Each call keeps the hierarchy
sound as long as no link count wraps around.
-/

set_option autoImplicit false

namespace Xv6Dedup.Tree

open Function Program

/-! ## Entries of one directory -/

/-- The inode that an entry names, if it is not free. -/
def Entry.named (entry : Entry) : Option Nat := if entry.inum = 0 then none else some entry.inum

theorem Entry.named_eq_some {entry : Entry} {i : Nat} : entry.named = some i ↔ entry.inum = i ∧ i ≠ 0 := by
  unfold Entry.named
  split
  · rename_i free
    refine ⟨nofun, fun same => absurd (same.1 ▸ free) same.2⟩
  · rename_i used
    refine ⟨fun same => ?_, fun same => congrArg some same.1⟩
    have inum := Option.some.inj same
    exact ⟨inum, inum ▸ used⟩

/-- A directory: the first two entries, and no name twice. -/
structure Folder (d : Nat) (node : Node) : Prop where
  self : node.entries[0]? = some ⟨d, dot⟩
  up : ∃ above, above ≠ 0 ∧ node.entries[1]? = some ⟨above, dotdot⟩
  full : node.entries.length ≤ MAXENTRIES
  distinct : ∀ (k l : Nat) (first second : Entry), node.entries[k]? = some first →
    node.entries[l]? = some second → first.inum ≠ 0 → second.inum ≠ 0 →
    first.name = second.name → k = l

section Entries

variable {d k position : Nat} {node : Node} {entry : Entry} {name : List Byte}

theorem getElem?_putEntry (entry : Entry) (inside : position ≤ node.entries.length) (k : Nat) :
    (node.putEntry position entry).entries[k]? = if k = position then some entry else node.entries[k]? := by
  unfold Node.putEntry
  by_cases within : position < node.entries.length
  · simp only [within, if_true]
    by_cases same : k = position
    · subst same
      rw [if_pos rfl, List.getElem?_set_self within]
    · rw [if_neg same, List.getElem?_set_ne (Ne.symm same)]
  · have atEnd : position = node.entries.length := Nat.le_antisymm inside (Nat.le_of_not_lt within)
    simp only [within, if_false]
    by_cases same : k = position
    · rw [same, atEnd]
      simp
    · rw [if_neg same]
      by_cases before : k < node.entries.length
      · rw [List.getElem?_append_left before]
      · have after : node.entries.length + 1 ≤ k := by omega
        rw [List.getElem?_eq_none (by simpa using after), List.getElem?_eq_none (by omega)]

theorem length_putEntry (inside : position < MAXENTRIES) (full : node.entries.length ≤ MAXENTRIES)
    (reaches : position ≤ node.entries.length) : (node.putEntry position entry).entries.length ≤ MAXENTRIES := by
  unfold Node.putEntry
  by_cases within : position < node.entries.length
  · simpa only [within, if_true, List.length_set] using full
  · simp only [within, if_false, List.length_append, List.length_singleton]
    omega

theorem vacancy_le (node : Node) : node.vacancy ≤ node.entries.length := List.findIdx_le_length

theorem vacancy_free (found : node.entries[node.vacancy]? = some entry) : entry.inum = 0 := by
  obtain ⟨inside, rfl⟩ := List.getElem?_eq_some_iff.mp found
  have free := List.findIdx_getElem (w := inside)
  exact of_decide_eq_true free

theorem absent_name (absent : node.entries[node.position name]? = none)
    (found : node.entries[k]? = some entry) (used : entry.inum ≠ 0) : entry.name ≠ name := by
  intro same
  have outside := List.getElem?_eq_none_iff.mp absent
  have searched : node.position name < node.entries.length :=
    List.findIdx_lt_length_of_exists ⟨entry, List.mem_of_getElem? found,
      decide_eq_true ⟨used, same⟩⟩
  omega

section

variable (folder : Folder d node)
include folder

theorem Folder.two_le_vacancy (positive : d ≠ 0) : 2 ≤ node.vacancy := by
  obtain ⟨above, used, up⟩ := folder.up
  by_contra small
  rcases Nat.lt_or_ge node.vacancy 1 with zero | one
  · have atZero : node.vacancy = 0 := by omega
    have found : node.entries[node.vacancy]? = some ⟨d, dot⟩ := atZero ▸ folder.self
    exact positive (vacancy_free found)
  · have atOne : node.vacancy = 1 := by omega
    have found : node.entries[node.vacancy]? = some ⟨above, dotdot⟩ := atOne ▸ up
    exact used (vacancy_free found)

theorem Folder.plain (positive : d ≠ 0) (past : 2 ≤ k) (found : node.entries[k]? = some entry) (used : entry.inum ≠ 0) :
    entry.name ≠ dot ∧ entry.name ≠ dotdot := by
  obtain ⟨above, aboveUsed, up⟩ := folder.up
  refine ⟨fun same => ?_, fun same => ?_⟩
  · have zero := folder.distinct k 0 entry _ found folder.self used positive same
    omega
  · have one := folder.distinct k 1 entry _ found up used aboveUsed same
    omega

theorem Folder.past (found : node.entries[k]? = some entry) (notSelf : entry.name ≠ dot)
    (notUp : entry.name ≠ dotdot) : 2 ≤ k := by
  obtain ⟨above, _, up⟩ := folder.up
  by_contra small
  rcases Nat.lt_or_ge k 1 with zero | one
  · obtain rfl : k = 0 := by omega
    rw [folder.self] at found
    exact notSelf (Option.some.inj found ▸ rfl)
  · obtain rfl : k = 1 := by omega
    rw [up] at found
    exact notUp (Option.some.inj found ▸ rfl)

theorem Folder.add (positive : d ≠ 0) (absent : node.entries[node.position name]? = none)
    (space : node.vacancy < MAXENTRIES) {ip : Nat} : Folder d (node.putEntry node.vacancy ⟨ip, name⟩) := by
  have two := folder.two_le_vacancy positive
  have reads := getElem?_putEntry ⟨ip, name⟩ (vacancy_le node)
  obtain ⟨above, used, up⟩ := folder.up
  refine ⟨?_, ⟨above, used, ?_⟩, length_putEntry space folder.full (vacancy_le node), ?_⟩
  · rw [reads, if_neg (by omega)]
    exact folder.self
  · rw [reads, if_neg (by omega)]
    exact up
  · intro k l first second atFirst atSecond usedFirst usedSecond same
    rw [reads] at atFirst atSecond
    split at atFirst
    · rename_i isNew
      obtain rfl := Option.some.inj atFirst
      split at atSecond
      · rename_i alsoNew
        exact isNew.trans alsoNew.symm
      · exact absurd same.symm (absent_name absent atSecond usedSecond)
    · split at atSecond
      · obtain rfl := Option.some.inj atSecond
        exact absurd same (absent_name absent atFirst usedFirst)
      · exact folder.distinct k l first second atFirst atSecond usedFirst usedSecond same

theorem Folder.clear (past : 2 ≤ position) (found : node.entries[position]? = some entry) :
    Folder d (node.putEntry position ⟨0, []⟩) := by
  have inside : position < node.entries.length := (List.getElem?_eq_some_iff.mp found).1
  have reads := getElem?_putEntry ⟨0, []⟩ (Nat.le_of_lt inside)
  obtain ⟨above, used, up⟩ := folder.up
  refine ⟨?_, ⟨above, used, ?_⟩, ?_, ?_⟩
  · rw [reads, if_neg (by omega)]
    exact folder.self
  · rw [reads, if_neg (by omega)]
    exact up
  · exact length_putEntry (Nat.lt_of_lt_of_le inside folder.full) folder.full (Nat.le_of_lt inside)
  · intro k l first second atFirst atSecond usedFirst usedSecond same
    rw [reads] at atFirst atSecond
    split at atFirst
    · exact absurd (Option.some.inj atFirst ▸ rfl) usedFirst
    · split at atSecond
      · exact absurd (Option.some.inj atSecond ▸ rfl) usedSecond
      · exact folder.distinct k l first second atFirst atSecond usedFirst usedSecond same

end

theorem Folder.new {up : Nat} (used : up ≠ 0) (entries : node.entries = [⟨d, dot⟩, ⟨up, dotdot⟩]) : Folder d node := by
  refine ⟨by rw [entries]; rfl, ⟨up, used, by rw [entries]; rfl⟩, ?_, ?_⟩
  · rw [entries]
    exact (by decide : 2 ≤ MAXENTRIES)
  · intro k l first second atFirst atSecond _ _ same
    rw [entries] at atFirst atSecond
    have names (k : Nat) (entry : Entry) (found : ([⟨d, dot⟩, ⟨up, dotdot⟩] : List Entry)[k]? = some entry) :
        k = 0 ∧ entry.name = dot ∨ k = 1 ∧ entry.name = dotdot := by
      match k with
      | 0 => exact .inl ⟨rfl, Option.some.inj found ▸ rfl⟩
      | 1 => exact .inr ⟨rfl, Option.some.inj found ▸ rfl⟩
      | k + 2 => cases found
    rcases names k first atFirst with ⟨rfl, atZero⟩ | ⟨rfl, atOne⟩
    · rcases names l second atSecond with ⟨rfl, _⟩ | ⟨rfl, other⟩
      · rfl
      · exact absurd (atZero.symm.trans (same.trans other)) (by decide)
    · rcases names l second atSecond with ⟨rfl, other⟩ | ⟨rfl, _⟩
      · exact absurd (atOne.symm.trans (same.trans other)) (by decide)
      · rfl

theorem Folder.congr {other : Node} (folder : Folder d node) (same : other.entries = node.entries) :
    Folder d other := by
  obtain ⟨self, up, full, distinct⟩ := folder
  rw [← same] at self up full distinct
  exact ⟨self, up, full, distinct⟩

end Entries

/-! ## The hierarchy of all inodes -/

abbrev Place := Nat × Nat

@[irreducible] def slots : Finset Place := Finset.range NINODES ×ˢ Finset.range MAXENTRIES

theorem mem_slots {d k : Nat} : (d, k) ∈ slots ↔ d < NINODES ∧ k < MAXENTRIES := by
  unfold slots
  rw [Finset.mem_product, Finset.mem_range, Finset.mem_range]

def Node.child (node : Node) (k : Nat) : Option Nat :=
  if node.type = T_DIR ∧ 2 ≤ k then node.entries[k]?.bind Entry.named else none

def shape (nodes : Nat → Node) : Hierarchy.Shape Nat Place where
  live i := (nodes i).type ≠ 0
  folder i := decide ((nodes i).type = T_DIR)
  parent i := ((nodes i).entries[1]?.map (·.inum)).getD 0
  target place := (nodes place.1).child place.2
  links i := (nodes i).nlink

abbrev Sound (nodes : Nat → Node) : Prop := Hierarchy.Sound slots Prod.fst ROOTINO (shape nodes)

abbrev Exact (nodes : Nat → Node) : Prop := Hierarchy.Exact slots Prod.fst ROOTINO (shape nodes)

abbrev Attached (nodes : Nat → Node) : Prop := Hierarchy.Attached Prod.fst ROOTINO (shape nodes)

abbrev Reach (nodes : Nat → Node) (i : Nat) : Prop :=
  Hierarchy.Reach Prod.fst ROOTINO (shape nodes) i

structure Dotted (nodes : Nat → Node) : Prop where
  folder : ∀ d, (nodes d).type = T_DIR → Folder d (nodes d)
  inside : ∀ i, (nodes i).type ≠ 0 → 0 < i ∧ i < NINODES
  top : (nodes ROOTINO).entries[1]? = some ⟨ROOTINO, dotdot⟩

section Shapes

variable {nodes after : Nat → Node} {node other : Node} {dp ip i k position type : Nat}
  {entry : Entry} {name : List Byte}

theorem child_eq_some : node.child k = some i ↔ node.type = T_DIR ∧ 2 ≤ k ∧
    ∃ entry, node.entries[k]? = some entry ∧ entry.inum = i ∧ i ≠ 0 := by
  unfold Node.child
  split
  · rename_i here
    rw [Option.bind_eq_some_iff]
    constructor
    · intro found
      obtain ⟨entry, read, named⟩ := found
      exact ⟨here.1, here.2, entry, read, Entry.named_eq_some.mp named⟩
    · intro found
      obtain ⟨_, _, entry, read, named⟩ := found
      exact ⟨entry, read, Entry.named_eq_some.mpr named⟩
  · rename_i elsewhere
    exact ⟨nofun, fun found => absurd ⟨found.1, found.2.1⟩ elsewhere⟩

theorem child_congr (types : other.type = node.type) (entries : other.entries = node.entries) :
    other.child k = node.child k := by
  rw [Node.child, Node.child, types, entries]

theorem child_of_free (free : node.type = 0) : node.child k = none := by
  rw [Node.child, if_neg]
  rw [free]
  exact fun here => absurd here.1 (by decide)

theorem child_putEntry (directory : node.type = T_DIR) (reaches : position ≤ node.entries.length)
    (past : 2 ≤ position) : (node.putEntry position entry).child k =
      if k = position then entry.named else node.child k := by
  unfold Node.child
  have types : (node.putEntry position entry).type = T_DIR := directory
  rw [getElem?_putEntry entry reaches, types, directory]
  by_cases same : k = position
  · subst same
    rw [if_pos rfl, if_pos rfl, if_pos ⟨rfl, past⟩]
    rfl
  · rw [if_neg same, if_neg same]

theorem Dotted.vacancy_place (dotted : Dotted nodes) (directory : (nodes dp).type = T_DIR) : 2 ≤ (nodes dp).vacancy :=
  (dotted.folder dp directory).two_le_vacancy (Nat.ne_of_gt (dotted.inside dp (by rw [directory]; decide)).1)

theorem vacancy_target : (shape nodes).target (dp, (nodes dp).vacancy) = none := by
  cases named : (shape nodes).target (dp, (nodes dp).vacancy) with
  | none => rfl
  | some i =>
    obtain ⟨_, _, entry, read, inum, used⟩ := child_eq_some.mp named
    exact absurd (inum.symm.trans (vacancy_free read)) used

theorem vacancy_slot (dotted : Dotted nodes) (room : Room nodes dp name) : (dp, (nodes dp).vacancy) ∈ slots := by
  have inside := dotted.inside dp (by rw [room.directory]; decide)
  exact mem_slots.mpr ⟨inside.2, room.space⟩

/-! ### A new inode -/

theorem addNode_parent : addNode nodes dp ip type name dp = Node.putEntry { nodes dp with
      nlink := if type = T_DIR then ((nodes dp).nlink + 1) % 2 ^ 16 else (nodes dp).nlink }
      (nodes dp).vacancy { inum := ip, name := name } := by
  rw [addNode, update_self]

theorem addNode_entries (k : Nat) : (addNode nodes dp ip type name dp).entries[k]? =
    if k = (nodes dp).vacancy then some ⟨ip, name⟩ else (nodes dp).entries[k]? := by
  rw [addNode_parent]
  exact getElem?_putEntry _ (vacancy_le (nodes dp)) k

theorem addNode_new (apart : ip ≠ dp) : addNode nodes dp ip type name ip = {
      type := type
      nlink := 1
      entries := if type = T_DIR then [⟨ip, dot⟩, ⟨dp, dotdot⟩] else [] } := by
  rw [addNode, update_of_ne apart, update_self]

theorem addNode_other (notNew : i ≠ ip) (notParent : i ≠ dp) : addNode nodes dp ip type name i = nodes i := by
  rw [addNode, update_of_ne notParent, update_of_ne notNew]

theorem addNode_type (notNew : i ≠ ip) : (addNode nodes dp ip type name i).type = (nodes i).type := by
  by_cases isParent : i = dp
  · rw [isParent, addNode_parent]
    rfl
  · rw [addNode_other notNew isParent]

theorem Room.apart (room : Room nodes dp name) (free : (nodes ip).type = 0) : ip ≠ dp := by
  intro same
  rw [same, room.directory] at free
  cases free

theorem Dotted.addNode (dotted : Dotted nodes) (room : Room nodes dp name)
    (free : (nodes ip).type = 0) (positive : 0 < ip) (inside : ip < NINODES)
    (root : (nodes ROOTINO).type = T_DIR) : Dotted (addNode nodes dp ip type name) := by
  have apart := room.apart free
  have holder : Folder dp { nodes dp with
      nlink := if type = T_DIR then ((nodes dp).nlink + 1) % 2 ^ 16 else (nodes dp).nlink } :=
    (dotted.folder dp room.directory).congr rfl
  have holderUsed : dp ≠ 0 :=
    Nat.ne_of_gt (dotted.inside dp (by rw [room.directory]; decide)).1
  constructor
  · intro d directory
    by_cases isNew : d = ip
    · subst isNew
      rw [addNode_new apart] at directory ⊢
      have isDirectory : type = T_DIR := directory
      exact .new holderUsed (if_pos isDirectory)
    · rw [addNode_type isNew] at directory
      by_cases isParent : d = dp
      · subst isParent
        rw [addNode_parent]
        exact holder.add holderUsed room.absent room.space
      · rw [addNode_other isNew isParent]
        exact dotted.folder d directory
  · intro i allocated
    by_cases isNew : i = ip
    · subst isNew
      exact ⟨positive, inside⟩
    · rw [addNode_type isNew] at allocated
      exact dotted.inside i allocated
  · have rootOld : ROOTINO ≠ ip := by
      intro same
      rw [← same, root] at free
      cases free
    by_cases isParent : ROOTINO = dp
    · subst isParent
      have two := dotted.vacancy_place room.directory
      rw [addNode_entries, if_neg (by omega)]
      exact dotted.top
    · rw [addNode_other rootOld isParent]
      exact dotted.top

theorem addNode_added (dotted : Dotted nodes) (room : Room nodes dp name)
    (free : (nodes ip).type = 0) (typed : type ≠ 0) (positive : 0 < ip) (small : (nodes dp).nlink + 1 < 2 ^ 16) :
    Hierarchy.Added Prod.fst (dp, (nodes dp).vacancy) ip (shape nodes) (shape (addNode nodes dp ip type name)) := by
  have apart := room.apart free
  have two := dotted.vacancy_place room.directory
  have folderNew : (shape (addNode nodes dp ip type name)).folder ip = decide (type = T_DIR) := by
    simp only [shape, addNode_new apart]
  constructor
  · intro i
    by_cases isNew : i = ip
    · subst isNew
      simp only [shape, addNode_new apart, true_or, iff_true]
      exact typed
    · simp only [shape, addNode_type isNew, isNew, false_or]
  · intro i isOld
    simp only [shape, addNode_type isOld]
  · intro i isOld _
    by_cases isParent : i = dp
    · subst isParent
      simp only [shape]
      rw [addNode_entries, if_neg (by omega)]
    · simp only [shape, addNode_other isOld isParent]
  · intro isFolder
    rw [folderNew] at isFolder
    simp only [shape, addNode_new apart, if_pos (of_decide_eq_true isFolder)]
    rfl
  · funext place
    obtain ⟨d, k⟩ := place
    by_cases isParent : d = dp
    · subst isParent
      have child : (addNode nodes d ip type name d).child k =
          if k = (nodes d).vacancy then some ip else (nodes d).child k := by
        have named : Entry.named ⟨ip, name⟩ = some ip :=
          Entry.named_eq_some.mpr ⟨rfl, Nat.ne_of_gt positive⟩
        rw [addNode_parent, ← named]
        exact child_putEntry room.directory (vacancy_le (nodes d)) two
      by_cases here : k = (nodes d).vacancy
      · rw [here, update_self]
        exact (here ▸ child).trans (if_pos rfl)
      · rw [update_of_ne fun same => here (Prod.mk.inj same).2]
        exact child.trans (if_neg here)
    · rw [update_of_ne fun same => isParent (Prod.mk.inj same).1]
      by_cases isNew : d = ip
      · subst isNew
        refine Eq.trans ?_ (child_of_free free).symm
        cases named : (addNode nodes dp d type name d).child k with
        | none => exact named
        | some i =>
          obtain ⟨_, past, entry, read, _⟩ := child_eq_some.mp named
          rw [addNode_new apart] at read
          split at read
          · match k, past with
            | k + 2, _ => cases read
          · cases read
      · simp only [shape, addNode_other isNew isParent]
  · simp only [shape, addNode_new apart]
  · intro i isOld
    rw [folderNew]
    by_cases isParent : i = dp
    · subst isParent
      have links : (addNode nodes i ip type name i).nlink =
          if type = T_DIR then ((nodes i).nlink + 1) % 2 ^ 16 else (nodes i).nlink := by
        rw [addNode_parent]
        rfl
      simp only [shape, links, decide_eq_true_eq, and_true]
      split
      · rw [Nat.mod_eq_of_lt small]
      · rfl
    · rw [if_neg fun both => isParent both.2.symm]
      simp only [shape, addNode_other isOld isParent, Nat.add_zero]

/-! ### Link counts and entries -/

theorem lower_type (nodes : Nat → Node) (ip j : Nat) : (lower nodes ip j).type = (nodes j).type :=
  (lasts_lower nodes ip j).type

theorem lower_entries (nodes : Nat → Node) (ip j : Nat) : (lower nodes ip j).entries = (nodes j).entries := by
  by_cases same : j = ip
  · rw [same, lower, update_self]
  · rw [lower, update_of_ne same]

theorem raise_nlink (small : (nodes ip).nlink + 1 < 2 ^ 16) (j : Nat) :
    (raise nodes ip j).nlink = (nodes j).nlink + if ip = j then 1 else 0 := by
  by_cases same : j = ip
  · rw [same, raise, update_self, if_pos rfl]
    exact Nat.mod_eq_of_lt small
  · rw [raise, update_of_ne same, if_neg (Ne.symm same), Nat.add_zero]

theorem lower_nlink (linked : (nodes ip).nlink ≠ 0) (short : (nodes ip).nlink < 2 ^ 16) (j : Nat) :
    (lower nodes ip j).nlink + (if ip = j then 1 else 0) = (nodes j).nlink := by
  by_cases same : j = ip
  · rw [same, lower, update_self, if_pos rfl]
    exact (by omega : ((nodes ip).nlink + (2 ^ 16 - 1)) % 2 ^ 16 + 1 = (nodes ip).nlink)
  · rw [lower, update_of_ne same, if_neg (Ne.symm same), Nat.add_zero]

structure Recounted (nodes after : Nat → Node) : Prop where
  type : ∀ i, (after i).type = (nodes i).type
  entries : ∀ i, (after i).entries = (nodes i).entries

theorem recounted_raise (nodes : Nat → Node) (ip : Nat) : Recounted nodes (raise nodes ip) :=
  ⟨raise_type nodes ip, raise_entries nodes ip⟩

theorem recounted_lower (nodes : Nat → Node) (ip : Nat) : Recounted nodes (lower nodes ip) :=
  ⟨lower_type nodes ip, lower_entries nodes ip⟩

theorem Recounted.trans {middle : Nat → Node} (first : Recounted nodes middle)
    (second : Recounted middle after) : Recounted nodes after :=
  ⟨fun i => (second.type i).trans (first.type i), fun i => (second.entries i).trans (first.entries i)⟩

theorem Recounted.dotted (same : Recounted nodes after) (dotted : Dotted nodes) : Dotted after := by
  refine ⟨fun d directory => ?_, fun i allocated => ?_, ?_⟩
  · rw [same.type] at directory
    exact (dotted.folder d directory).congr (same.entries d)
  · rw [same.type] at allocated
    exact dotted.inside i allocated
  · rw [same.entries]
    exact dotted.top

theorem Recounted.target (same : Recounted nodes after) : (shape after).target = (shape nodes).target :=
  funext fun place => child_congr (same.type place.1) (same.entries place.1)

theorem writeEntry_type (j : Nat) : (writeEntry nodes dp position entry j).type = (nodes j).type :=
  (lasts_writeEntry nodes dp position entry j).type

theorem writeEntry_nlink (j : Nat) : (writeEntry nodes dp position entry j).nlink = (nodes j).nlink := by
  by_cases same : j = dp
  · rw [same, writeEntry, update_self]
    rfl
  · rw [writeEntry, update_of_ne same]

theorem writeEntry_other {j : Nat} (other : j ≠ dp) : writeEntry nodes dp position entry j = nodes j := by
  rw [writeEntry, update_of_ne other]

theorem writeEntry_entries (reaches : position ≤ (nodes dp).entries.length) (k : Nat) :
    (writeEntry nodes dp position entry dp).entries[k]? =
      if k = position then some entry else (nodes dp).entries[k]? := by
  rw [writeEntry, update_self]
  exact getElem?_putEntry entry reaches k

theorem writeEntry_target (directory : (nodes dp).type = T_DIR)
    (reaches : position ≤ (nodes dp).entries.length) (past : 2 ≤ position) :
    (shape (writeEntry nodes dp position entry)).target = update (shape nodes).target (dp, position) entry.named := by
  funext place
  obtain ⟨d, k⟩ := place
  by_cases isHolder : d = dp
  · subst isHolder
    have child : (writeEntry nodes d position entry d).child k =
        if k = position then entry.named else (nodes d).child k := by
      rw [writeEntry, update_self]
      exact child_putEntry directory reaches past
    by_cases here : k = position
    · rw [here, update_self]
      exact (here ▸ child).trans (if_pos rfl)
    · rw [update_of_ne fun same => here (Prod.mk.inj same).2]
      exact child.trans (if_neg here)
  · rw [update_of_ne fun same => isHolder (Prod.mk.inj same).1]
    simp only [shape, writeEntry_other isHolder]

theorem Dotted.writeEntry (dotted : Dotted nodes) (reaches : position ≤ (nodes dp).entries.length) (past : 2 ≤ position)
    (holder : Folder dp ((nodes dp).putEntry position entry)) : Dotted (writeEntry nodes dp position entry) := by
  refine ⟨fun d directory => ?_, fun i allocated => ?_, ?_⟩
  · by_cases isHolder : d = dp
    · rw [isHolder, Tree.writeEntry, update_self]
      exact holder
    · rw [writeEntry_type] at directory
      rw [writeEntry_other isHolder]
      exact dotted.folder d directory
  · rw [writeEntry_type] at allocated
    exact dotted.inside i allocated
  · by_cases isHolder : ROOTINO = dp
    · rw [isHolder, writeEntry_entries reaches, if_neg (by omega), ← isHolder]
      exact dotted.top
    · rw [writeEntry_other isHolder]
      exact dotted.top

theorem writeEntry_parent (reaches : position ≤ (nodes dp).entries.length) (past : 2 ≤ position)
    (j : Nat) : (shape (writeEntry nodes dp position entry)).parent j = (shape nodes).parent j := by
  by_cases isHolder : j = dp
  · simp only [shape]
    rw [isHolder, writeEntry_entries reaches, if_neg (by omega)]
  · simp only [shape, writeEntry_other isHolder]

/-! ### Links -/

theorem addLink_linked (dotted : Dotted nodes) (room : Room nodes dp name)
    (allocated : (nodes ip).type ≠ 0) (small : (nodes ip).nlink + 1 < 2 ^ 16) :
    Hierarchy.Linked (dp, (nodes dp).vacancy) ip (shape nodes) (shape (addLink nodes dp ip name)) := by
  have same := recounted_raise nodes ip
  have reaches : (nodes dp).vacancy ≤ (raise nodes ip dp).entries.length := by
    rw [raise_entries]
    exact vacancy_le (nodes dp)
  have two := dotted.vacancy_place room.directory
  have directory : (raise nodes ip dp).type = T_DIR := by
    rw [raise_type]
    exact room.directory
  have used : ip ≠ 0 := Nat.ne_of_gt (dotted.inside ip allocated).1
  constructor
  · intro i
    simp only [shape, addLink, writeEntry_type, raise_type]
  · funext i
    simp only [shape, addLink, writeEntry_type, raise_type]
  · intro i _
    rw [addLink, writeEntry_parent reaches two]
    simp only [shape, raise_entries]
  · rw [addLink, writeEntry_target directory reaches two, same.target, Entry.named_eq_some.mpr ⟨rfl, used⟩]
  · intro i
    simp only [shape, addLink, writeEntry_nlink, raise_nlink small]

theorem Dotted.addLink (dotted : Dotted nodes) (room : Room nodes dp name) : Dotted (addLink nodes dp ip name) := by
  have raised := (recounted_raise nodes ip).dotted dotted
  have two := dotted.vacancy_place room.directory
  have reaches : (nodes dp).vacancy ≤ (raise nodes ip dp).entries.length := by
    rw [raise_entries]
    exact vacancy_le (nodes dp)
  refine raised.writeEntry reaches two ?_
  have used : dp ≠ 0 := Nat.ne_of_gt (dotted.inside dp (by rw [room.directory]; decide)).1
  have added : Folder dp ((nodes dp).putEntry (nodes dp).vacancy ⟨ip, name⟩) :=
    (dotted.folder dp room.directory).add used room.absent room.space
  refine added.congr ?_
  rw [Node.putEntry, raise_entries]
  rfl

structure Entered (nodes : Nat → Node) (dp position : Nat) (entry : Entry) : Prop where
  directory : (nodes dp).type = T_DIR
  found : (nodes dp).entries[position]? = some entry
  present : entry.inum ≠ 0
  past : 2 ≤ position

section

variable (entered : Entered nodes dp position entry)
include entered

theorem Entered.target : (shape nodes).target (dp, position) = some entry.inum :=
  child_eq_some.mpr ⟨entered.directory, entered.past, entry, entered.found, rfl, entered.present⟩

theorem Entered.reaches : position ≤ (nodes dp).entries.length :=
  Nat.le_of_lt (List.getElem?_eq_some_iff.mp entered.found).1

theorem Entered.not_empty : (nodes dp).isEmpty ≠ true := by
  rw [Node.isEmpty, ne_eq, List.all_eq_true]
  refine fun empty => entered.present (of_decide_eq_true (empty entry ?_))
  refine List.mem_of_getElem? (i := position - 2) ?_
  rw [List.getElem?_drop, Nat.add_sub_cancel' entered.past]
  exact entered.found

theorem Entered.apart (empty : (nodes entry.inum).type = T_DIR → (nodes entry.inum).isEmpty = true) :
    dp ≠ entry.inum := by
  intro same
  rw [← same] at empty
  exact entered.not_empty (empty entered.directory)

end

theorem recounted_removeLink : Recounted
    (writeEntry nodes dp position { inum := 0, name := [] }) (removeLink nodes dp ip position) := by
  refine Recounted.trans ?_ (recounted_lower _ ip)
  split
  · exact recounted_lower _ dp
  · exact ⟨fun _ => rfl, fun _ => rfl⟩

theorem Dotted.removeLink (dotted : Dotted nodes) (entered : Entered nodes dp position entry) :
    Dotted (removeLink nodes dp ip position) := by
  refine recounted_removeLink.dotted (dotted.writeEntry entered.reaches entered.past ?_)
  exact (dotted.folder dp entered.directory).clear entered.past entered.found

theorem removeLink_nlink (apart : dp ≠ ip) (linked : (nodes ip).nlink ≠ 0)
    (holder : (nodes ip).type = T_DIR → (nodes dp).nlink ≠ 0) (short : ∀ j, (nodes j).nlink < 2 ^ 16) (j : Nat) :
    (removeLink nodes dp ip position j).nlink + (if ip = j then 1 else 0) +
      (if (nodes ip).type = T_DIR ∧ dp = j then 1 else 0) = (nodes j).nlink := by
  have shortCleared : ∀ j, (writeEntry nodes dp position { inum := 0, name := [] } j).nlink <
    2 ^ 16 := fun j => (lasts_writeEntry _ _ _ _ j).short (short j)
  have cleared (j : Nat) : (writeEntry nodes dp position { inum := 0, name := [] } j).nlink =
    (nodes j).nlink := writeEntry_nlink j
  unfold removeLink
  generalize written : writeEntry nodes dp position { inum := 0, name := [] } = middle at *
  have type : (middle ip).type = (nodes ip).type := by
    rw [← written, writeEntry_type]
  by_cases directory : (nodes ip).type = T_DIR
  · have inner := lower_nlink (cleared dp ▸ holder directory) (shortCleared dp)
    have atNode := inner ip
    rw [if_neg apart, cleared] at atNode
    have outer := lower_nlink (atNode ▸ linked) ((lasts_lower _ _ ip).short (shortCleared ip)) j
    simp only [type, directory, if_true, true_and]
    rw [outer, inner j, cleared]
  · have outer := lower_nlink (cleared ip ▸ linked) (shortCleared ip) j
    simp only [type, directory, if_false, false_and, Nat.add_zero]
    rw [outer, cleared]

theorem removeLink_removed (entered : Entered nodes dp position entry)
    (apart : dp ≠ entry.inum) (linked : (nodes entry.inum).nlink ≠ 0)
    (holder : (nodes entry.inum).type = T_DIR → (nodes dp).nlink ≠ 0) (short : ∀ j, (nodes j).nlink < 2 ^ 16) :
    Hierarchy.Removed Prod.fst (dp, position) entry.inum (shape nodes)
      (shape (removeLink nodes dp entry.inum position)) := by
  have same : Recounted _ (removeLink nodes dp entry.inum position) := recounted_removeLink
  constructor
  · intro i
    simp only [shape, same.type, writeEntry_type]
  · funext i
    simp only [shape, same.type, writeEntry_type]
  · intro i _
    have kept : (shape (writeEntry nodes dp position { inum := 0, name := [] })).parent i = _ :=
      writeEntry_parent entered.reaches entered.past i
    rw [← kept]
    simp only [shape, same.entries]
  · rw [same.target, writeEntry_target entered.directory entered.reaches entered.past]
    rfl
  · intro i
    have links : (removeLink nodes dp entry.inum position i).nlink + _ + _ = _ :=
      removeLink_nlink apart linked holder short i
    simpa only [shape, decide_eq_true_eq] using links

/-! ### Freeing -/

theorem sweeps_freed {users : Nat → Nat} (swept : Sweeps users nodes after) :
    Hierarchy.Freed Prod.fst (fun i => after i ≠ nodes i) (shape nodes) (shape after) := by
  have gone {i : Nat} (changed : after i ≠ nodes i) : after i = {} ∧ (nodes i).nlink = 0 := by
    rcases swept i with same | ⟨free, unlinked, _⟩
    · exact absurd same changed
    · exact ⟨free, unlinked⟩
  have child {i k : Nat} (changed : after i ≠ nodes i) : (after i).child k = none :=
    child_of_free (by rw [(gone changed).1])
  constructor
  · intro i
    by_cases same : after i = nodes i
    · simp only [shape, same, ne_eq, not_true, not_false_eq_true, and_true]
    · exact ⟨fun live => absurd (congrArg Node.type (gone same).1) live, fun both => absurd same both.2⟩
  · intro i
    by_cases same : after i = nodes i
    · simp only [shape, same, ne_eq, not_true, not_false_eq_true, and_true]
    · have free : (after i).type ≠ T_DIR := by
        rw [(gone same).1]
        decide
      exact ⟨fun isFolder => absurd (of_decide_eq_true isFolder) free, fun both => absurd same both.2⟩
  · intro i _ kept
    simp only [shape, not_not.mp kept]
  · intro place i
    by_cases same : after place.1 = nodes place.1
    · simp only [shape, same, ne_eq, not_true, not_false_eq_true, and_true]
    · simp only [shape, child same, ne_eq, same, not_false_eq_true, not_true, and_false, reduceCtorEq]
  · intro i kept
    simp only [shape, not_not.mp kept]
  · exact fun i changed => (gone changed).2

theorem Dotted.swept {users : Nat → Nat} (dotted : Dotted nodes)
    (swept : Sweeps users nodes after) (linked : (nodes ROOTINO).nlink ≠ 0) : Dotted after := by
  refine ⟨fun d directory => ?_, fun i allocated => ?_, ?_⟩
  · rcases swept d with same | ⟨free, _⟩
    · rw [same] at directory ⊢
      exact dotted.folder d directory
    · rw [free] at directory
      cases directory
  · rcases swept i with same | ⟨free, _⟩
    · rw [same] at allocated
      exact dotted.inside i allocated
    · rw [free] at allocated
      exact absurd rfl allocated
  · rcases swept ROOTINO with same | ⟨_, unlinked, _⟩
    · rw [same]
      exact dotted.top
    · exact absurd unlinked linked

end Shapes

end Xv6Dedup.Tree
