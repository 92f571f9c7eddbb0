import Xv6Dedup.Tree.Holding

/-!
# What the calls on paths do

The effect of each call on the inodes, as a function of the inodes before: a call
that fails leaves them alone, and one that succeeds adds an inode, adds an entry
or removes an entry. Then inodes without links may be freed to which nobody
refers any more.
-/

set_option autoImplicit false

namespace Xv6Dedup.Tree

open Function Program

/-- A new inode with an entry in the directory `dp`. -/
def addNode (nodes : Nat → Node) (dp ip type : Nat) (name : List Byte) : Nat → Node :=
  Function.update (Function.update nodes ip {
      type := type
      nlink := 1
      entries := if type = T_DIR then [⟨ip, dot⟩, ⟨dp, dotdot⟩] else [] })
    dp (Node.putEntry { nodes dp with
      nlink := if type = T_DIR then ((nodes dp).nlink + 1) % 2 ^ 16 else (nodes dp).nlink }
      (nodes dp).vacancy { inum := ip, name := name })

/-- One more link of the inode `ip`. -/
def raise (nodes : Nat → Node) (ip : Nat) : Nat → Node :=
  Function.update nodes ip { nodes ip with nlink := ((nodes ip).nlink + 1) % 2 ^ 16 }

/-- One link of the inode `ip` less. -/
def lower (nodes : Nat → Node) (ip : Nat) : Nat → Node :=
  Function.update nodes ip { nodes ip with nlink := ((nodes ip).nlink + (2 ^ 16 - 1)) % 2 ^ 16 }

/-- The entry at a position of the directory `dp` is written. -/
def writeEntry (nodes : Nat → Node) (dp position : Nat) (entry : Entry) : Nat → Node :=
  Function.update nodes dp ((nodes dp).putEntry position entry)

/-- Another entry for the inode `ip`. -/
def addLink (nodes : Nat → Node) (dp ip : Nat) (name : List Byte) : Nat → Node :=
  writeEntry (raise nodes ip) dp (nodes dp).vacancy { inum := ip, name := name }

/-- The entry of the inode `ip` at a position is removed. -/
def removeLink (nodes : Nat → Node) (dp ip position : Nat) : Nat → Node :=
  let cleared := writeEntry nodes dp position { inum := 0, name := [] }
  lower (if (cleared ip).type = T_DIR then lower cleared dp else cleared) ip

structure Room (nodes : Nat → Node) (dp : Nat) (name : List Byte) : Prop where
  directory : (nodes dp).type = T_DIR
  absent : (nodes dp).entries[(nodes dp).position name]? = none
  space : (nodes dp).vacancy < MAXENTRIES

/-- What a call does to the inodes; `Parent` holds of the directory it changes. -/
inductive Edit (nodes : Nat → Node) (Parent : Nat → Prop) : (Nat → Node) → Prop
  | same : Edit nodes Parent nodes
  | node {dp ip type : Nat} {name : List Byte} (parent : Parent dp) (room : Room nodes dp name)
      (typed : type ≠ 0) (free : (nodes ip).type = 0) (positive : 0 < ip) (inside : ip < NINODES) :
      Edit nodes Parent (addNode nodes dp ip type name)
  | link {dp ip : Nat} {name : List Byte} (parent : Parent dp) (room : Room nodes dp name)
      (allocated : (nodes ip).type ≠ 0) (file : (nodes ip).type ≠ T_DIR) :
      Edit nodes Parent (addLink nodes dp ip name)
  | unlink {dp position : Nat} {entry : Entry} (parent : Parent dp) (directory : (nodes dp).type = T_DIR)
      (found : (nodes dp).entries[position]? = some entry) (present : entry.inum ≠ 0)
      (plain : ¬ (entry.name = dot ∨ entry.name = dotdot))
      (allocated : (nodes entry.inum).type ≠ 0) (linked : (nodes entry.inum).nlink ≠ 0)
      (empty : (nodes entry.inum).type = T_DIR → (nodes entry.inum).isEmpty = true) :
      Edit nodes Parent (removeLink nodes dp entry.inum position)

def Sweeps (users : Nat → Nat) (nodes after : Nat → Node) : Prop :=
  ∀ i, after i = nodes i ∨ after i = {} ∧ (nodes i).nlink = 0 ∧ users i = 0

theorem Sweeps.of_eq {users : Nat → Nat} {nodes after : Nat → Node} (same : after = nodes) :
    Sweeps users nodes after := fun i => .inl (congrFun same i)

theorem Sweeps.trans {users : Nat → Nat} {nodes middle after : Nat → Node}
    (first : Sweeps users nodes middle) (second : Sweeps users middle after) : Sweeps users nodes after := by
  intro i
  cases second i with
  | inl same =>
    rw [same]
    exact first i
  | inr freed =>
    obtain ⟨gone, unlinked, unused⟩ := freed
    cases first i with
    | inl same => exact .inr ⟨gone, same ▸ unlinked, unused⟩
    | inr before => exact .inr ⟨gone, before.2⟩

section Effects

variable {fs next : Fs} {anchors walk : List Nat} {i : Nat} {signs : Signs}

theorem Reclaimed.sweeps (reclaimed : Reclaimed fs next i) : Sweeps fs.users fs.nodes next.nodes := by
  intro j
  cases reclaimed with
  | inl same => exact .inl (by rw [same])
  | inr freed =>
    obtain ⟨after, unlinked, unused⟩ := freed
    by_cases same : j = i
    · subst same
      exact .inr ⟨by rw [after, update_self], unlinked, unused⟩
    · exact .inl (by rw [after, update_of_ne same])

theorem iput_anchor (held : Held (i :: anchors) [] fs) : Gives signs (iput i) fs fun _ next =>
    Held anchors [] next ∧ SameUsers fs next ∧ Reclaimed fs next i ∧ (i ∈ anchors → next.nodes = fs.nodes) ∧
      ∀ j ∈ anchors, fs.valid j = true → next.valid j = true := by
  refine iput_gives.post fun _ next put => ?_
  subst put
  obtain ⟨after, same, reclaimed⟩ := held.put_anchor
  have others {j : Nat} (member : j ∈ anchors) (frees : fs.ref i = 1) : j ≠ i := by
    intro same
    have several := List.count_pos_iff.mpr (same ▸ member)
    have count := held.anchored i
    rw [if_pos rfl] at count
    omega
  refine ⟨after, same, reclaimed, fun member => ?_, fun j member valid => ?_⟩
  · cases put_nodes fs i with
    | inl nodes => exact nodes
    | inr freed => exact absurd rfl (others member freed.2.1)
  · unfold Fs.put
    split
    · rename_i frees
      exact (setValid_other (others member frees.1)).trans valid
    · exact valid

structure Rewrites (fs : Fs) (nodes : Nat → Node) (next : Fs) : Prop extends SameUsers fs next where
  valid : next.valid = fs.valid
  nodes : next.nodes = nodes

variable {nodes : Nat → Node} {dp ip cwd : Nat} {name path : List Byte} {Parent : Nat → Prop}

theorem Rewrites.trans {middle : Fs} {after : Nat → Node} (first : Rewrites fs nodes middle)
    (second : Rewrites middle after next) : Rewrites fs after next :=
  ⟨first.toSameUsers.trans second.toSameUsers, second.valid.trans first.valid, second.nodes⟩

theorem setNlink_gives {update : Nat → Nat} (held : Held anchors walk fs) (member : i ∈ anchors)
    (valid : fs.valid i = true) : Gives signs (setNlink i update) fs fun _ next =>
      Held anchors walk next ∧ Rewrites fs (Function.update fs.nodes i
        { fs.nodes i with nlink := update (fs.nodes i).nlink % 2 ^ 16 }) next :=
  Wp.change ⟨held.setNode member valid rfl, ⟨rfl, rfl⟩, rfl, rfl⟩

theorem dirlink_gives {inum : Nat} (held : Held anchors walk fs)
    (full : MAXENTRIES ≤ (fs.nodes dp).vacancy → signs.full) :
    Gives signs (dirlink dp name inum) fs fun linked next => Held anchors walk next ∧
      (linked = -1 ∧ Passed fs next ∧ (∀ j ∈ anchors, fs.valid j = true → next.valid j = true) ∧
          (fs.nodes dp).entries[(fs.nodes dp).position name]? ≠ none ∨ linked = 0 ∧ Room fs.nodes dp name ∧ Rewrites fs
          (writeEntry fs.nodes dp (fs.nodes dp).vacancy { inum := inum, name := name }) next) := by
  refine Wp.seq (dirlookup_held held) fun found middle looked => ?_
  obtain ⟨directory, outcome⟩ := looked
  cases found with
  | none =>
    obtain ⟨rfl, absent⟩ := outcome
    refine Wp.peek (Wp.ite (fun crowded => Wp.throw ⟨nofun, fun _ => full crowded, nofun⟩) fun space => ?_)
    refine Wp.set (Wp.pure ⟨held.rewrite rfl rfl, .inr ⟨rfl, ?_, ?_⟩⟩)
    · exact ⟨directory, absent, Nat.lt_of_not_le space⟩
    · exact ⟨⟨rfl, rfl⟩, rfl, rfl⟩
  | some found =>
    obtain ⟨ip, position⟩ := found
    obtain ⟨middleHeld, passed, stays, rfl, entry, present, rfl⟩ := outcome
    refine Wp.seq (iput_walk middleHeld) fun _ last put => Wp.pure ⟨put.1, .inl ⟨rfl, ?_, ?_, ?_⟩⟩
    · exact passed.trans put.2.1
    · exact fun j member valid => put.2.2 j (stays j valid (held.anchor_ref member))
    · rw [present]
      exact Option.some_ne_none entry

/-! ## New inodes -/

def Fs.new (fs : Fs) (ip type nlink : Nat) (valid : Bool) : Fs :=
  ((fs.setNode ip { type := type, nlink := nlink }).setRef ip (fs.ref ip + 1)).setValid ip valid

theorem freeInode_some (picked : fs.freeInode = some ip) : 0 < ip ∧ ip < NINODES ∧ (fs.nodes ip).type = 0 := by
  have chosen := List.find?_some picked
  have inside := List.mem_range.mp (List.mem_of_find?_eq_some picked)
  obtain ⟨positive, free⟩ := of_decide_eq_true chosen
  exact ⟨positive, inside, free⟩

variable {type : Nat}

theorem ialloc_gives (held : Held anchors walk fs) : Gives signs (ialloc type) fs fun ip next =>
      (0 < ip ∧ ip < NINODES ∧ (fs.nodes ip).type = 0) ∧ next = fs.new ip type 0 false := by
  refine Wp.see ?_
  cases picked : fs.freeInode with
  | none => exact Wp.throw (otherPanic (by decide))
  | some ip =>
    have free := freeInode_some picked
    refine Wp.set ?_
    refine Wp.bind (Wp.see (Wp.ite (fun used => ?_) fun unused => ?_))
    · refine Wp.change (Wp.pure ⟨free, ?_⟩)
      -- an entry of the cache for a free inode is not valid
      have invalid : fs.valid ip = false := by
        cases valid : fs.valid ip with
        | false => rfl
        | true => exact absurd free.2.2 (held.sure ip valid used)
      rw [← invalid]
      exact congrArg (Fs.mk _ _ · _ _) (update_eq_self ip fs.valid).symm
    · refine Wp.ite (fun _ => Wp.throw (otherPanic (by decide))) fun _ =>
        Wp.change (Wp.pure ⟨free, ?_⟩)
      have zero : fs.ref ip = 0 := Nat.eq_zero_of_not_pos unused
      unfold Fs.new
      rw [zero]

theorem Held.new (held : Held anchors walk fs) (free : (fs.nodes ip).type = 0) (typed : type ≠ 0) :
    Held (ip :: anchors) walk (fs.new ip type 1 true) := by
  have nodes {j : Nat} (other : j ≠ ip) : (fs.new ip type 1 true).nodes j = fs.nodes j :=
    setNode_other other
  have self : (fs.new ip type 1 true).nodes ip = { type := type, nlink := 1 } := setNode_same _
  refine ⟨fun j => ?_, fun j used => ?_, fun j valid positive => ?_, fun j allocated unlinked => ?_⟩
  · have before := held.refs j
    by_cases same : j = ip
    · subst same
      rw [List.count_cons_self]
      exact (setRef_same _).trans (by omega : fs.ref j + 1 = anchors.count j + 1 + walk.count j + fs.users j)
    · rw [List.count_cons_of_ne (Ne.symm same)]
      exact (setRef_other same).trans before
  · by_cases same : j = ip
    · rw [same, self]
      exact typed
    · rw [nodes same]
      exact held.typed j used
  · by_cases same : j = ip
    · rw [same, self]
      exact typed
    · rw [nodes same]
      exact held.sure j ((setValid_other same).symm.trans valid) ((setRef_other same).symm.trans_gt positive)
  · by_cases same : j = ip
    · rw [same, self] at unlinked
      cases unlinked
    · rw [nodes same] at allocated unlinked
      rw [List.count_cons_of_ne (Ne.symm same)]
      obtain ⟨valid, positive⟩ := held.kept j allocated unlinked
      exact ⟨(setValid_other same).trans valid, positive⟩

/-- The inodes after the two entries of a new directory have been written. -/
def withDots (nodes : Nat → Node) (ip dp : Nat) : Nat → Node :=
  Function.update (raise nodes dp) ip { nodes ip with entries := [⟨ip, dot⟩, ⟨dp, dotdot⟩] }

theorem linkDots_gives (held : Held anchors [] fs) (member : dp ∈ anchors)
    (valid : fs.valid dp = true) (other : ip ≠ dp) (positive : 0 < ip)
    (fresh : (fs.nodes ip).entries = []) : Gives signs (linkDots ip dp) fs fun _ next =>
      Held anchors [] next ∧ Rewrites fs (withDots fs.nodes ip dp) next := by
  refine Wp.seq (setNlink_gives held member valid) fun _ raised raise => ?_
  obtain ⟨raisedHeld, raise⟩ := raise
  have same : raised.nodes ip = fs.nodes ip := by
    rw [raise.nodes, update_of_ne other]
  have empty : ¬ MAXENTRIES ≤ (raised.nodes ip).vacancy := by
    rw [same, Node.vacancy, fresh]
    decide
  refine Wp.seq (dirlink_gives raisedHeld (absurd · empty)) fun self middle linked => ?_
  obtain ⟨middleHeld, linked⟩ := linked
  rcases linked with ⟨rfl, _⟩ | ⟨rfl, _, first⟩
  · exact Wp.ite (fun _ => Wp.throw (otherPanic (by decide))) fun wrong => absurd (by decide) wrong
  refine Wp.ite (fun wrong => absurd wrong (by decide)) fun _ => ?_
  have one : middle.nodes ip = { fs.nodes ip with entries := [⟨ip, dot⟩] } := by
    rw [first.nodes, writeEntry, update_self, same, Node.putEntry, fresh]
    rfl
  have short : ¬ MAXENTRIES ≤ (middle.nodes ip).vacancy := by
    rw [one]
    exact Nat.not_le.mpr (Nat.lt_of_le_of_lt List.findIdx_le_length (by decide : 1 < MAXENTRIES))
  refine Wp.seq (dirlink_gives middleHeld (absurd · short)) fun parent last linked => ?_
  obtain ⟨lastHeld, linked⟩ := linked
  rcases linked with ⟨rfl, _⟩ | ⟨rfl, _, second⟩
  · exact Wp.ite (fun _ => Wp.throw (otherPanic (by decide))) fun wrong => absurd (by decide) wrong
  refine Wp.ite (fun wrong => absurd wrong (by decide)) fun _ => Wp.pure ⟨lastHeld, ?_⟩
  have both : last.nodes ip = { fs.nodes ip with entries := [⟨ip, dot⟩, ⟨dp, dotdot⟩] } := by
    have used : ip ≠ 0 := Nat.ne_of_gt positive
    rw [second.nodes, writeEntry, one]
    simp [Node.putEntry, Node.vacancy, used]
  refine { (raise.trans first).trans second with nodes := funext fun j => ?_ }
  by_cases isNew : j = ip
  · rw [isNew, both, withDots, update_self]
  · rw [withDots, update_of_ne isNew, second.nodes, writeEntry,
      update_of_ne isNew, first.nodes, writeEntry, update_of_ne isNew, raise.nodes]
    rfl

theorem dots_gives (held : Held anchors [] fs) (member : dp ∈ anchors) (valid : fs.valid dp = true)
    (other : ip ≠ dp) (positive : 0 < ip) (fresh : (fs.nodes ip).entries = []) :
    Gives signs (onlyIf (type = T_DIR) (linkDots ip dp)) fs fun _ next => Held anchors [] next ∧
      Rewrites fs (if type = T_DIR then withDots fs.nodes ip dp else fs.nodes) next := by
  refine Wp.onlyIf (fun directory => ?_) fun file => ?_
  · rw [if_pos directory]
    exact linkDots_gives held member valid other positive fresh
  · rw [if_neg file]
    exact ⟨held, ⟨rfl, rfl⟩, rfl, rfl⟩

def dotted (nodes : Nat → Node) (ip dp type : Nat) : Nat → Node :=
  let allocated := Function.update nodes ip { type := type, nlink := 1 }
  if type = T_DIR then withDots allocated ip dp else allocated

theorem dotted_parent (other : ip ≠ dp) : dotted nodes ip dp type dp = { nodes dp with
      nlink := if type = T_DIR then ((nodes dp).nlink + 1) % 2 ^ 16 else (nodes dp).nlink } := by
  by_cases directory : type = T_DIR
  · simp [dotted, directory, withDots, raise, update_of_ne other.symm]
  · simp [dotted, directory, update_of_ne other.symm]

theorem addNode_eq (other : ip ≠ dp) :
    writeEntry (dotted nodes ip dp type) dp (dotted nodes ip dp type dp).vacancy
      { inum := ip, name := name } = addNode nodes dp ip type name := by
  funext j
  have atNew : dotted nodes ip dp type ip = {
      type := type
      nlink := 1
      entries := if type = T_DIR then [⟨ip, dot⟩, ⟨dp, dotdot⟩] else [] } := by
    by_cases directory : type = T_DIR
    · simp [dotted, directory, withDots]
    · simp [dotted, directory]
  have elsewhere (isNew : j ≠ ip) (isParent : j ≠ dp) : dotted nodes ip dp type j = nodes j := by
    by_cases directory : type = T_DIR
    · simp [dotted, directory, withDots, raise, isNew, isParent]
    · simp [dotted, directory, isNew]
  unfold writeEntry addNode
  by_cases isParent : j = dp
  · rw [isParent, update_self, update_self, dotted_parent other]
    rfl
  · rw [update_of_ne isParent, update_of_ne isParent]
    by_cases isNew : j = ip
    · rw [isNew, update_self, atNew]
    · rw [update_of_ne isNew, elsewhere isNew isParent]

theorem createNew_gives (held : Held [dp] [] fs) (valid : fs.valid dp = true) (directory : (fs.nodes dp).type = T_DIR)
    (absent : (fs.nodes dp).entries[(fs.nodes dp).position name]? = none) (typed : type ≠ 0)
    (parent : Parent dp) (full : MAXENTRIES ≤ (fs.nodes dp).vacancy → signs.full) :
    Gives signs (createNew dp name type) fs fun made next =>
      ∃ ip, made = some ip ∧ Held [ip] [] next ∧ SameUsers fs next ∧ (next.nodes ip).type ≠ 0 ∧
        ∃ edited, Edit fs.nodes Parent edited ∧ Sweeps fs.users edited next.nodes := by
  refine Wp.seq (ialloc_gives held) fun ip _ picked => ?_
  obtain ⟨⟨positive, inside, free⟩, rfl⟩ := picked
  have other : ip ≠ dp := by
    intro same
    rw [same, directory] at free
    cases free
  have allocated : (fs.new ip type 0 false).nodes ip = { type := type } := setNode_same _
  refine Wp.seq (ilock_gives fun zero => absurd ((congrArg Node.type allocated).symm.trans zero) typed) fun _ _ locked => ?_
  obtain ⟨rfl, _⟩ := locked
  refine Wp.set ?_
  have made : ((fs.new ip type 0 false).setValid ip true).setNode ip
      { (fs.new ip type 0 false).nodes ip with nlink := 1 % 2 ^ 16 } = fs.new ip type 1 true := by
    simp [Fs.new, Fs.setNode, Fs.setRef, Fs.setValid]
  refine (congrArg (fun start => Wp _ _ start _ _) made).mpr ?_
  have newValid : (fs.new ip type 1 true).valid dp = true := (setValid_other other.symm).trans valid
  have newHeld := held.new free typed
  have fresh : ((fs.new ip type 1 true).nodes ip).entries = [] :=
    congrArg Node.entries (setNode_same _)
  refine Wp.seq (dots_gives newHeld (by simp) newValid other positive fresh) fun _ middle dots => ?_
  obtain ⟨middleHeld, dots⟩ := dots
  have dotted : middle.nodes = dotted fs.nodes ip dp type := dots.nodes
  have entries : (middle.nodes dp).entries = (fs.nodes dp).entries := by
    rw [dotted, dotted_parent other]
  rw [Node.vacancy, ← entries] at full
  rw [Node.position, ← entries] at absent
  refine Wp.seq (dirlink_gives middleHeld full) fun linked last link => ?_
  obtain ⟨lastHeld, link⟩ := link
  rcases link with ⟨rfl, _, _, found⟩ | ⟨rfl, room, rewrites⟩
  · exact absurd absent found
  refine Wp.ite (fun wrong => absurd wrong (by decide)) fun _ => ?_
  have added : last.nodes = addNode fs.nodes dp ip type name := by
    rw [rewrites.nodes, dotted]
    exact addNode_eq other
  have before : SameUsers fs last := ⟨rewrites.files.trans dots.files, rewrites.procs.trans dots.procs⟩
  have swapped : Held [dp, ip] [] last := lastHeld.permuteAnchors (List.Perm.swap _ _ _)
  refine Wp.seq (iput_anchor swapped) fun _ final put => Wp.pure ?_
  obtain ⟨finalHeld, same, reclaimed, _⟩ := put
  have swept := reclaimed.sweeps
  rw [before.users, added] at swept
  have space := room.space
  rw [Node.vacancy, entries] at space
  rw [entries] at absent
  refine ⟨ip, rfl, finalHeld, before.trans same, ?_, _, ?_, swept⟩
  · have typedLast : (last.nodes ip).type = type := by
      rw [added, addNode, update_of_ne other, update_self]
    cases reclaimed with
    | inl kept => rwa [kept, typedLast]
    | inr freed => rwa [freed.1, update_of_ne other, typedLast]
  · exact .node parent ⟨directory, absent, space⟩ typed free positive inside

/-- What a call leaves behind that still has the references `anchors`. -/
structure Outcome (anchors : List Nat) (fs : Fs) (Parent : Nat → Prop) (next : Fs) : Prop where
  held : Held anchors [] next
  edits : ∃ edited, Edit fs.nodes Parent edited ∧ Sweeps next.users edited next.nodes

theorem Outcome.passed (held : Held anchors [] next) (nodes : next.nodes = fs.nodes) : Outcome anchors fs Parent next :=
  ⟨held, fs.nodes, .same, .of_eq nodes⟩

theorem Outcome.put {middle : Fs} (first : Outcome (i :: anchors) fs Parent middle)
    (held : Held anchors [] next) (same : SameUsers middle next) (reclaimed : Reclaimed middle next i) :
    Outcome anchors fs Parent next := by
  obtain ⟨edited, edit, swept⟩ := first.edits
  refine ⟨held, edited, edit, ?_⟩
  rw [same.users]
  exact swept.trans reclaimed.sweeps

theorem Edit.mono {edited : Nat → Node} {Wider : Nat → Prop} (edit : Edit nodes Parent edited)
    (wider : ∀ dp, Parent dp → Wider dp) : Edit nodes Wider edited := by
  cases edit with
  | same => exact .same
  | node parent room typed free positive inside =>
    exact .node (wider _ parent) room typed free positive inside
  | link parent room allocated file => exact .link (wider _ parent) room allocated file
  | unlink parent directory found present plain allocated linked empty =>
    exact .unlink (wider _ parent) directory found present plain allocated linked empty

theorem Outcome.mono {Wider : Nat → Prop} (outcome : Outcome anchors fs Parent next)
    (wider : ∀ dp, Parent dp → Wider dp) : Outcome anchors fs Wider next := by
  obtain ⟨held, edited, edit, swept⟩ := outcome
  exact ⟨held, edited, edit.mono wider, swept⟩

theorem create_gives (held : Held [] [] fs) (used : 0 < fs.users cwd) (typed : type ≠ 0) :
    Gives (Search fs.nodes cwd path) (create cwd path type) fs fun made next =>
      SameUsers fs next ∧ (∀ ip ∈ made, (next.nodes ip).type ≠ 0) ∧ Outcome made.toList fs
        (fun dp => made ≠ none ∧ Seen fs.nodes (origin cwd path) dp) next := by
  refine Wp.seq (namex_held held used) fun parent middle found => ?_
  obtain ⟨found, leads⟩ := found
  cases parent with
  | none => exact Wp.pure ⟨found.toSameUsers, fun _ same => (nomatch same), .passed found.held found.nodes⟩
  | some parent =>
    obtain ⟨dp, name⟩ := parent
    refine Wp.seq (found.ilock id) fun _ locked lock => ?_
    obtain ⟨lockedHeld, lock, lockPassed⟩ := lock
    have seen : Seen fs.nodes (origin cwd path) dp := found.seen dp rfl
    refine Wp.seq (dirlookup_held lockedHeld) fun present looked lookup => ?_
    obtain ⟨directory, lookup⟩ := lookup
    cases present with
    | none =>
      obtain ⟨rfl, absent⟩ := lookup
      have full (crowded : MAXENTRIES ≤ (looked.nodes dp).vacancy) :
          (Search fs.nodes cwd path).full := ⟨dp, name, leads.symm, lockPassed.nodes ▸ crowded⟩
      refine (createNew_gives lockedHeld.anchor lock.valid directory absent typed seen full).post fun made next result => ?_
      obtain ⟨ip, rfl, nextHeld, same, made, edited, edit, swept⟩ := result
      refine ⟨lockPassed.toSameUsers.trans same, ?_, nextHeld, edited, ?_, ?_⟩
      · intro j isMade
        rwa [← Option.some.inj isMade]
      · rw [lockPassed.nodes] at edit
        exact edit.mono fun _ seen => ⟨nofun, seen⟩
      · rwa [same.users]
    | some present =>
      obtain ⟨ip, position⟩ := present
      obtain ⟨lookedHeld, passed, _, rfl, entry, present, rfl⟩ := lookup
      have swapped : Held [] [dp, entry.inum] looked :=
        lookedHeld.permute (List.Perm.swap _ _ _)
      refine Wp.seq (iput_walk swapped) fun _ dropped put => ?_
      have dropPassed := (lockPassed.trans passed).trans put.2.1
      obtain ⟨member, positive, _⟩ := position_entry present
      rw [lockPassed.nodes] at directory member
      refine Wp.seq (ilock_held put.1 fun free =>
        ⟨entry.inum, .entry seen directory member positive, dropPassed.nodes ▸ free⟩)
        fun _ last lastLock => ?_
      obtain ⟨lastHeld, lastLock⟩ := lastLock
      have lastPassed := dropPassed.trans lastLock.toPassed
      refine Wp.peek (Wp.ite (fun _ => Wp.pure ?_) fun _ => ?_)
      · refine ⟨lastPassed.toSameUsers, ?_, .passed lastHeld.anchor lastPassed.nodes⟩
        intro j isMade
        rw [← Option.some.inj isMade]
        exact lastLock.typed
      · refine Wp.seq (iput_walk lastHeld) fun _ final finalPut => Wp.pure ?_
        have finalPassed := lastPassed.trans finalPut.2.1
        exact ⟨finalPassed.toSameUsers, fun _ same => (nomatch same), .passed finalPut.1 finalPassed.nodes⟩

theorem makeNode_gives (held : Held [] [] fs) (used : 0 < fs.users cwd) (typed : type ≠ 0) :
    Gives (Search fs.nodes cwd path) (makeNode cwd path type) fs fun result next =>
      Outcome [] fs (fun dp => result ≠ -1 ∧ Seen fs.nodes (origin cwd path) dp) next := by
  refine Wp.seq (create_gives held used typed) fun made middle created => ?_
  obtain ⟨_, _, outcome⟩ := created
  cases made with
  | none => exact Wp.pure (outcome.mono fun _ parent => absurd rfl parent.1)
  | some ip =>
    refine Wp.seq (iput_anchor outcome.held) fun _ last put => Wp.pure ?_
    exact (outcome.put put.1 put.2.1 put.2.2.1).mono fun _ parent => ⟨by decide, parent.2⟩

/-! ## Links -/

theorem raise_type (nodes : Nat → Node) (ip j : Nat) : (raise nodes ip j).type = (nodes j).type := by
  by_cases same : j = ip
  · rw [same, raise, update_self]
  · rw [raise, update_of_ne same]

theorem raise_entries (nodes : Nat → Node) (ip j : Nat) : (raise nodes ip j).entries = (nodes j).entries := by
  by_cases same : j = ip
  · rw [same, raise, update_self]
  · rw [raise, update_of_ne same]

theorem lower_raise (short : (nodes ip).nlink < 2 ^ 16) : lower (raise nodes ip) ip = nodes := by
  have back : (((nodes ip).nlink + 1) % 2 ^ 16 + (2 ^ 16 - 1)) % 2 ^ 16 = (nodes ip).nlink := by
    omega
  unfold lower raise
  rw [update_self, update_idem, back, update_eq_self]

variable {before : Fs}

theorem linkBad_gives {Parent : Int → Nat → Prop} (held : Held [ip] [] fs) (typed : (fs.nodes ip).type ≠ 0)
    (raised : fs.nodes = raise before.nodes ip) (short : (before.nodes ip).nlink < 2 ^ 16) :
    Gives signs (linkBad ip) fs fun result => Outcome [] before (Parent result) := by
  refine Wp.seq (ilock_held held fun free => absurd free typed) fun _ locked lock => ?_
  obtain ⟨lockedHeld, lock⟩ := lock
  refine Wp.seq (setNlink_gives lockedHeld (by simp) lock.valid) fun _ middle set => ?_
  obtain ⟨middleHeld, set⟩ := set
  have restored : middle.nodes = before.nodes := by
    rw [set.nodes, lock.nodes, raised]
    exact lower_raise short
  refine Wp.seq (iput_anchor middleHeld) fun _ last put => Wp.pure ?_
  exact (Outcome.passed middleHeld restored).put put.1 put.2.1 put.2.2.1

theorem Gives.widen {α : Type} {wider : Signs} {program : TreeM α} {Post : α → Fs → Prop}
    (gives : Gives signs program fs Post) (lost : signs.lost → wider.lost)
    (full : signs.full → wider.full) : Gives wider program fs Post :=
  gives.stops fun _ _ told =>
    ⟨fun stopped => lost (told.lost stopped), fun stopped => full (told.full stopped), told.linked⟩

theorem Strays.of_raise {source : Nat} (strays : Strays (raise nodes ip) source) : Strays nodes source := by
  obtain ⟨j, seen, free⟩ := strays
  exact ⟨j, seen.congr (raise_type nodes ip) (raise_entries nodes ip), raise_type nodes ip j ▸ free⟩

theorem vacancy_raise (nodes : Nat → Node) (ip dp : Nat) : (raise nodes ip dp).vacancy = (nodes dp).vacancy := by
  rw [Node.vacancy, raise_entries, Node.vacancy]

theorem Room.of_raise (room : Room (raise nodes ip) dp name) : Room nodes dp name := by
  obtain ⟨directory, absent, space⟩ := room
  rw [raise_type] at directory
  rw [Node.position, raise_entries] at absent
  rw [vacancy_raise] at space
  exact ⟨directory, absent, space⟩

theorem leads_raise {parent : Bool} (count : Nat) {source : Nat} :
    leads (raise nodes ip) parent count source path = leads nodes parent count source path := by
  induction count generalizing source path with
  | zero => rfl
  | succ count ih => simp only [leads, raise_type, Node.position, raise_entries, ih]

theorem linkEntry_gives {new : List Byte} (held : Held [ip] [] fs) (used : 0 < fs.users cwd)
    (raised : fs.nodes = raise before.nodes ip) (typed : (before.nodes ip).type ≠ 0)
    (file : (before.nodes ip).type ≠ T_DIR) (short : (before.nodes ip).nlink < 2 ^ 16) :
    Gives (Search before.nodes cwd new) (do
      let parent ← nameiparent cwd new
      match parent with
      | none => linkBad ip
      | some (dp, name) => do
        ilock dp
        let linked ← dirlink dp name ip
        if linked < 0 then do
          iput dp
          linkBad ip
        else do
          iput dp
          iput ip
          pure 0) fs fun result next => Outcome [] before
            (fun dp => result ≠ -1 ∧ Seen before.nodes (origin cwd new) dp) next := by
  have walked : Gives (Search before.nodes cwd new) (nameiparent cwd new) fs _ :=
    Gives.widen (namex_held held used) (fun strays => (raised ▸ strays).of_raise) id
  have still {other : Fs} (passed : Passed fs other) : (other.nodes ip).type ≠ 0 := by
    rw [passed.nodes, raised, raise_type]
    exact typed
  refine Wp.seq walked fun parent middle found => ?_
  obtain ⟨found, leads⟩ := found
  cases parent with
  | none =>
    exact linkBad_gives found.held (still found.toPassed) (found.nodes.trans raised) short
  | some parent =>
    obtain ⟨dp, name⟩ := parent
    have seen : Seen before.nodes (origin cwd new) dp :=
      Seen.congr (raise_type before.nodes ip) (raise_entries before.nodes ip) (raised ▸ found.seen dp rfl)
    refine Wp.seq (found.ilock fun strays => (raised ▸ strays).of_raise) fun _ locked lock => ?_
    obtain ⟨lockedHeld, lock, passed⟩ := lock
    have full (crowded : MAXENTRIES ≤ (locked.nodes dp).vacancy) : (Search before.nodes cwd new).full := by
      rw [passed.nodes, raised, vacancy_raise] at crowded
      rw [raised, leads_raise] at leads
      exact ⟨dp, name, leads.symm, crowded⟩
    refine Wp.seq (dirlink_gives lockedHeld full) fun linked last link => ?_
    obtain ⟨lastHeld, link⟩ := link
    rcases link with ⟨rfl, linkPassed, _⟩ | ⟨rfl, room, rewrites⟩
    · refine Wp.ite (fun _ => ?_) fun wrong => absurd (by decide) wrong
      refine Wp.seq (iput_walk lastHeld) fun _ dropped put => ?_
      have dropPassed := (passed.trans linkPassed).trans put.2.1
      exact linkBad_gives put.1 (still dropPassed) (dropPassed.nodes.trans raised) short
    · refine Wp.ite (fun wrong => absurd wrong (by decide)) fun _ => ?_
      refine Wp.seq (iput_walk lastHeld) fun _ dropped put => ?_
      rw [passed.nodes, raised] at room
      have added : dropped.nodes = addLink before.nodes dp ip name := by
        rw [put.2.1.nodes, rewrites.nodes, passed.nodes, raised, vacancy_raise]
        rfl
      refine Wp.seq (iput_anchor put.1) fun _ final finalPut => Wp.pure ?_
      refine Outcome.put ⟨put.1, _, ?_, .of_eq added⟩ finalPut.1 finalPut.2.1 finalPut.2.2.1
      exact .link ⟨by decide, seen⟩ room.of_raise typed file

theorem sys_link_gives {old new : List Byte} (held : Held [] [] fs) (used : 0 < fs.users cwd)
    (short : ∀ i, (fs.nodes i).nlink < 2 ^ 16) :
    Gives ⟨Strays fs.nodes (origin cwd old) ∨ Strays fs.nodes (origin cwd new),
      (Search fs.nodes cwd new).full⟩ (sys_link cwd old new) fs fun result next =>
        Outcome [] fs (fun dp => result ≠ -1 ∧ Seen fs.nodes (origin cwd new) dp) next := by
  refine Wp.seq ((namei_held held used).widen .inl id) fun found middle lookup => ?_
  cases found with
  | none => exact Wp.pure (.passed lookup.held lookup.nodes)
  | some ip =>
    refine Wp.seq (lookup.ilock .inl) fun _ locked lock => ?_
    obtain ⟨lockedHeld, lock, passed⟩ := lock
    refine Wp.peek (Wp.ite (fun _ => ?_) fun file => ?_)
    · refine Wp.seq (iput_walk lockedHeld) fun _ last put => Wp.pure ?_
      exact .passed put.1 (passed.trans put.2.1).nodes
    · refine Wp.seq (setNlink_gives lockedHeld.anchor (by simp) lock.valid) fun _ raised set => ?_
      obtain ⟨raisedHeld, set⟩ := set
      have typed := lock.typed
      rw [passed.nodes] at typed file
      have users : raised.users = fs.users := set.users.trans passed.users
      refine (linkEntry_gives raisedHeld (users ▸ used) ?_ typed file (short ip)).widen .inr id
      rw [set.nodes, passed.nodes]
      rfl

theorem unlinkBad_gives {Parent : Int → Nat → Prop} (held : Held [] [dp] fs) (nodes : fs.nodes = before.nodes) :
    Gives signs (unlinkBad dp) fs fun result => Outcome [] before (Parent result) :=
  Wp.seq (iput_walk held) fun _ _ put => Wp.pure (.passed put.1 (put.2.1.nodes.trans nodes))

theorem Reclaimed.lowered (reclaimed : Reclaimed fs next dp) (same : dp = ip → next.nodes = fs.nodes) :
    Sweeps fs.users (lower fs.nodes ip) (lower next.nodes ip) := by
  cases reclaimed with
  | inl kept => exact .of_eq (by rw [kept])
  | inr freed =>
    obtain ⟨after, unlinked, unused⟩ := freed
    by_cases isParent : dp = ip
    · exact .of_eq (by rw [same isParent])
    intro j
    by_cases atParent : j = dp
    · subst atParent
      refine .inr ⟨?_, ?_, unused⟩
      · rw [lower, update_of_ne isParent, after, update_self]
      · rw [lower, update_of_ne isParent]
        exact unlinked
    · refine .inl ?_
      by_cases atNode : j = ip
      · rw [atNode, lower, lower, update_self, update_self, after, update_of_ne (Ne.symm isParent)]
      · rw [lower, lower, update_of_ne atNode, update_of_ne atNode, after, update_of_ne atParent]

theorem lowerParent_gives (held : Held anchors [] fs) (member : dp ∈ anchors) (valid : fs.valid dp = true) :
    Gives signs (onlyIf ((fs.nodes ip).type = T_DIR) (setNlink dp (· + (2 ^ 16 - 1)))) fs
      fun _ next => Held anchors [] next ∧ Rewrites fs
        (if (fs.nodes ip).type = T_DIR then lower fs.nodes dp else fs.nodes) next := by
  refine Wp.onlyIf (fun directory => ?_) fun file => ?_
  · rw [if_pos directory]
    exact setNlink_gives held member valid
  · rw [if_neg file]
    exact ⟨held, ⟨rfl, rfl⟩, rfl, rfl⟩

theorem unlinkEntry_gives {position : Nat} {Parent : Int → Nat → Prop} (held : Held [dp, ip] [] fs)
    (validParent : fs.valid dp = true) (validNode : fs.valid ip = true) (nodes : fs.nodes = before.nodes)
    (edit : Edit before.nodes (Parent 0) (removeLink before.nodes dp ip position)) :
    Gives signs (unlinkEntry dp ip position) fs fun result => Outcome [] before (Parent result) := by
  refine Wp.set ?_
  have clearedHeld : Held [dp, ip] [] (fs.setNode dp
      ((fs.nodes dp).putEntry position { inum := 0, name := [] })) := held.rewrite rfl rfl
  refine Wp.peek ?_
  refine Wp.seq (lowerParent_gives clearedHeld (by simp) validParent) fun _ middle low => ?_
  obtain ⟨middleHeld, low⟩ := low
  have removed : lower middle.nodes ip = removeLink before.nodes dp ip position := by
    rw [low.nodes, ← nodes]
    rfl
  have valid : middle.valid ip = true := low.valid ▸ validNode
  refine Wp.seq (iput_anchor middleHeld) fun _ dropped put => ?_
  obtain ⟨droppedHeld, same, reclaimed, kept, stays⟩ := put
  refine Wp.seq (setNlink_gives droppedHeld (by simp) (stays ip (by simp) valid)) fun _ last set => ?_
  obtain ⟨lastHeld, set⟩ := set
  have swept : Sweeps middle.users (lower middle.nodes ip) (lower dropped.nodes ip) :=
    reclaimed.lowered fun isParent => kept (by simp [isParent])
  have outcome : Outcome [ip] before (Parent 0) last := by
    refine ⟨lastHeld, _, edit, ?_⟩
    rw [set.nodes, set.users, same.users, ← removed]
    exact swept
  refine Wp.seq (iput_anchor lastHeld) fun _ final finalPut => Wp.pure ?_
  exact outcome.put finalPut.1 finalPut.2.1 finalPut.2.2.1

theorem sys_unlink_gives (held : Held [] [] fs) (used : 0 < fs.users cwd) :
    Gives (Search fs.nodes cwd path) (sys_unlink cwd path) fs fun result next =>
      Outcome [] fs (fun dp => result ≠ -1 ∧ Seen fs.nodes (origin cwd path) dp) next := by
  refine Wp.seq (namex_held held used) fun parent middle found => ?_
  obtain ⟨found, _⟩ := found
  cases parent with
  | none => exact Wp.pure (.passed found.held found.nodes)
  | some parent =>
    obtain ⟨dp, name⟩ := parent
    refine Wp.seq (found.ilock id) fun _ locked lock => ?_
    obtain ⟨lockedHeld, lock, lockPassed⟩ := lock
    have seen : Seen fs.nodes (origin cwd path) dp := found.seen dp rfl
    refine Wp.ite (fun _ => unlinkBad_gives lockedHeld lockPassed.nodes) fun plain => ?_
    refine Wp.seq (dirlookup_held lockedHeld) fun present looked lookup => ?_
    obtain ⟨directory, lookup⟩ := lookup
    cases present with
    | none =>
      obtain ⟨rfl, _⟩ := lookup
      exact unlinkBad_gives lockedHeld lockPassed.nodes
    | some present =>
      obtain ⟨ip, position⟩ := present
      obtain ⟨lookedHeld, passed, stays, rfl, entry, present, rfl⟩ := lookup
      have lookedPassed := lockPassed.trans passed
      obtain ⟨member, positive, named⟩ := position_entry present
      rw [lockPassed.nodes] at directory member present
      refine Wp.seq (ilock_held lookedHeld fun free =>
        ⟨entry.inum, .entry seen directory member positive, lookedPassed.nodes ▸ free⟩)
        fun _ last lastLock => ?_
      obtain ⟨lastHeld, lastLock⟩ := lastLock
      have lastPassed := lookedPassed.trans lastLock.toPassed
      refine Wp.peek (Wp.ite (fun _ => Wp.throw (otherPanic (by decide))) fun linked => ?_)
      refine Wp.ite (fun _ => ?_) fun full => ?_
      · refine Wp.seq (iput_walk lastHeld) fun _ dropped put => ?_
        exact unlinkBad_gives put.1 (lastPassed.trans put.2.1).nodes
      · have referred : 0 < locked.ref dp := by
          rw [lockedHeld.refs, List.count_cons_self]
          omega
        have valid := lastLock.stays dp (stays dp lock.valid referred)
        have typed := lastLock.typed
        rw [lastPassed.nodes] at typed linked full
        refine unlinkEntry_gives lastHeld.anchor.anchor valid lastLock.valid lastPassed.nodes ?_
        rw [lockPassed.nodes]
        refine .unlink ⟨by decide, seen⟩ directory present positive (named ▸ plain) typed
          (fun none => linked (.inl none)) fun isDirectory => ?_
        exact Bool.not_eq_false _ ▸ fun notEmpty => full ⟨isDirectory, notEmpty⟩

end Effects

end Xv6Dedup.Tree
