import Xv6Dedup.Tree.Wrapping

/-!
# Names in a full directory

A directory holds at most `MAXENTRIES` entries; `dirlink` panics when there is no
room for another. With room for the name, and with a file structure and a
descriptor for `open`, a call that makes a name and fails leaves nothing behind.
-/

set_option autoImplicit false

namespace Xv6Dedup.Tree

open Program

/-- The calls that make a name. -/
def Call.makes : Call → Bool
  | .link _ _ | .mkdir _ | .mknod _ => true
  | .open _ omode => decide (omode &&& O_CREATE ≠ 0)
  | .unlink _ | .chdir _ | .dup _ | .close _ | .write _ _ | .read | .fork _ | .exit => false

/-- The call does not panic at the entry, and if it fails no inode stays allocated and
no link count has changed. -/
structure Graceful (fs : Fs) (pid : Fin NPROC) (call : Call) : Prop where
  calm : ∀ reason next, perform pid call (fs, ()) = .error reason next →
    reason ≠ .panic "dirlink" ∧ reason ≠ .panic "create: dirlink"
  undone : ∀ next, perform pid call (fs, ()) = .ok (-1) (next, ()) → ∀ i,
    ((next.nodes i).type ≠ 0 → (next.nodes i).type = (fs.nodes i).type) ∧ (next.nodes i).nlink = (fs.nodes i).nlink

/-- The directory of the new name is not full, and `open` finds a file structure and a
descriptor. -/
def Fs.Spacious (fs : Fs) (pid : Fin NPROC) (call : Call) : Prop :=
  ¬ (fs.Tells pid call).full ∧ ¬ fs.Barred pid call

/-- In every run, a call that makes a name where there is space is graceful. -/
theorem making_graceful {contents : List (List Byte × List Byte)} {fs : Fs} {pid : Fin NPROC}
    {call : Call} (run : Relation.ReflTransGen Fs.Next (Fs.boot contents) fs)
    (makes : call.makes = true) (space : fs.Spacious pid call) : Graceful fs pid call := by
  have settled := settled_of_run run
  have forks (child : Fin NPROC) (same : call = .fork child) : fs.procs child = none := by
    rw [same] at makes
    cases makes
  have gives : Gives (fs.Tells pid call) (perform pid call) fs _ :=
    perform_gives settled.held settled.short forks
  refine ⟨fun reason next stopped => ?_, fun next returned i => ?_⟩
  · have told := gives.stopped trivial stopped
    exact ⟨fun same => space.1 (told.full same), told.linked⟩
  · cases (gives.returned trivial returned).1 with
    | inr written =>
      obtain ⟨⟨fd, data, same⟩, _⟩ := written
      rw [same] at makes
      cases makes
    | inl outcome =>
      -- a call that fails has no directory to change
      have nowhere (dp : Nat) : ¬ fs.Site pid call (-1) dp := fun site => space.2 (site.1 rfl)
      obtain ⟨_, edited, edit, swept⟩ := outcome
      obtain rfl : edited = fs.nodes := by
        cases edit with
        | same => rfl
        | node parent | link parent | unlink parent => exact absurd parent (nowhere _)
      cases swept i with
      | inl kept => exact ⟨fun _ => congrArg Node.type kept, congrArg Node.nlink kept⟩
      | inr freed =>
        refine ⟨fun allocated => absurd (congrArg Node.type freed.1) allocated, ?_⟩
        exact (congrArg Node.nlink freed.1).trans freed.2.1.symm

theorem making_graceful_boot :
    (Call.mkdir pathDirA).makes = true ∧ Graceful (Fs.boot []) initproc (.mkdir pathDirA) := by
  refine ⟨rfl, making_graceful .refl rfl ⟨fun full => ?_, fun barred => ?_⟩⟩
  · obtain ⟨path, member, proc, runs, dp, name, found, crowded⟩ := full
    obtain rfl := List.mem_singleton.mp member
    obtain rfl : 1 = dp := congrArg Prod.fst (Option.some.inj found)
    exact absurd crowded (by decide)
  · obtain ⟨_, _, _, isOpen, _⟩ := barred
    cases isOpen

/-! ## Filling a directory -/

/-- The root directory: entries in use and free ones. -/
def filled (used : List Entry) (free : Nat) : Node where
  type := T_DIR
  nlink := 1
  entries := used ++ List.replicate free ⟨0, []⟩

section Filled

variable {used : List Entry} {free : Nat} {name : List Byte}

theorem filled_vacancy (live : ∀ entry ∈ used, entry.inum ≠ 0) : (filled used free).vacancy = used.length := by
  have none : used.findIdx (fun entry => entry.inum = 0) = used.length :=
    List.findIdx_eq_length_of_false fun entry member => by simp [live entry member]
  rw [Node.vacancy, filled, List.findIdx_append, none, if_neg (Nat.lt_irrefl _)]
  cases free with
  | zero => exact Nat.zero_add _
  | succ free => simp [List.replicate_succ, List.findIdx_cons]

theorem filled_put (entry : Entry) :
    (filled used free).putEntry used.length entry = filled (used ++ [entry]) (free - 1) := by
  cases free with
  | zero => simp [filled, Node.putEntry]
  | succ free => simp [filled, Node.putEntry, List.replicate_succ]

theorem filled_absent (absent : ∀ entry ∈ used, entry.name ≠ name) :
    (filled used free).entries[(filled used free).position name]? = none := by
  refine List.getElem?_eq_none (Nat.le_of_eq (List.findIdx_eq_length_of_false ?_).symm)
  intro entry member
  cases List.mem_append.mp member with
  | inl member => simp [absent entry member]
  | inr member => simp [List.eq_of_mem_replicate member]

end Filled

def newName (n : Nat) : List Byte := [BitVec.ofNat 8 (65 + n / 100), BitVec.ofNat 8 (65 + n % 100)]

/-- The entries of the root after `count` links to the file `f`. -/
def linked (count : Nat) : List Entry :=
  [⟨1, dot⟩, ⟨1, dotdot⟩, ⟨2, nameF⟩] ++ (List.range count).map fun n => ⟨2, newName n⟩

abbrev filling (count : Nat) : Fs :=
  stage (count + 1) (filled (linked count) (29 - count)) {} false 1

theorem newName_ne {count n : Nat} (small : count < 4480) (less : n < count) : newName n ≠ newName count := by
  intro same
  have first := congrArg BitVec.toNat (List.cons.inj same).1
  have second := congrArg BitVec.toNat (List.cons.inj (List.cons.inj same).2).1
  simp only [BitVec.toNat_ofNat] at first second
  omega

theorem newByte_ne {n : Nat} {byte : Byte} (low : byte.toNat < 65) (small : n < 190) :
    BitVec.ofNat 8 (65 + n) ≠ byte := by
  intro same
  have value := congrArg BitVec.toNat same
  rw [BitVec.toNat_ofNat] at value
  omega

theorem linked_live (count : Nat) : ∀ entry ∈ linked count, entry.inum ≠ 0 := by
  simp [linked]

theorem linked_absent {count : Nat} (small : count < 4480) : ∀ entry ∈ linked count, entry.name ≠ newName count := by
  intro entry member
  cases List.mem_append.mp member with
  | inl first =>
    have dots : BitVec.ofNat 8 (65 + count / 100) ≠ 46 := newByte_ne (by decide) (by omega)
    simp only [List.mem_cons, List.not_mem_nil, or_false] at first
    rcases first with rfl | rfl | rfl
    · exact fun same => dots (List.cons.inj same).1.symm
    · exact fun same => dots (List.cons.inj same).1.symm
    · exact fun same => absurd (List.cons.inj same).2 nofun
  | inr later =>
    obtain ⟨n, less, rfl⟩ := List.mem_map.mp later
    exact newName_ne small (List.mem_range.mp less)

theorem skipelem_newName {n : Nat} (small : n < 4480) : skipelem (newName n) = some (newName n, []) := by
  have first : BitVec.ofNat 8 (65 + n / 100) ≠ slash := newByte_ne (by decide) (by omega)
  have second : BitVec.ofNat 8 (65 + n % 100) ≠ slash := newByte_ne (by decide) (by omega)
  simp [skipelem, newName, first, second, DIRSIZ]

theorem nameiparent_run {fs : Fs} {name : List Byte} (element : skipelem name = some (name, []))
    (relative : name.head? ≠ some slash) (valid : fs.valid 1 = true) (directory : (fs.nodes 1).type = T_DIR) :
    nameiparent 1 name (fs, ()) = .ok (some (1, name)) (fs.setRef 1 (fs.ref 1 + 1), ()) := by
  have starts : start 1 name (fs, ()) = .ok 1 (fs.setRef 1 (fs.ref 1 + 1), ()) := by
    unfold start
    rw [if_neg relative]
    rfl
  have locked : ilock 1 (fs.setRef 1 (fs.ref 1 + 1), ()) = .ok () (fs.setRef 1 (fs.ref 1 + 1), ()) := by
    refine (bind_ok rfl).trans ?_
    exact (congrFun (if_neg (by simp)) _).trans (congrFun (if_pos valid) _)
  refine (bind_ok starts).trans ?_
  simp only [namexFrom, element]
  refine (bind_ok locked).trans ((bind_ok rfl).trans ?_)
  exact (congrFun (if_neg (not_not.mpr directory)) _).trans (congrFun (if_pos ⟨trivial, trivial⟩) _)

/-- What `link` does before it looks up the directory of the new name. -/
def linkStart : TreeM Unit := do
  let _ ← namei 1 pathRootF
  ilock 2
  setNlink 2 (· + 1)

def linkRest (new : List Byte) : TreeM Int := do
  let parent ← nameiparent 1 new
  match parent with
  | none => linkBad 2
  | some (dp, name) => do
    ilock dp
    let linked ← dirlink dp name 2
    if linked < 0 then do
      iput dp
      linkBad 2
    else do
      iput dp
      iput 2
      pure 0

set_option maxRecDepth 20000

theorem link_start (links free : Nat) (rest : List Entry) (new : List Byte) :
    perform initproc (.link pathRootF new) (stage links
        (filled (⟨1, dot⟩ :: ⟨1, dotdot⟩ :: ⟨2, nameF⟩ :: rest) free) {} false 1, ()) =
      (do linkStart; linkRest new : TreeM Int) (stage links
        (filled (⟨1, dot⟩ :: ⟨1, dotdot⟩ :: ⟨2, nameF⟩ :: rest) free) {} false 1, ()) := rfl

theorem linkStart_stage (links free : Nat) (rest : List Entry) : outcome linkStart (stage links
        (filled (⟨1, dot⟩ :: ⟨1, dotdot⟩ :: ⟨2, nameF⟩ :: rest) free) {} false 1) =
      some ((), (stage ((links + 1) % 2 ^ 16)
        (filled (⟨1, dot⟩ :: ⟨1, dotdot⟩ :: ⟨2, nameF⟩ :: rest) free) {} false 1).counting 1 1 0) :=
  outcome_eq rfl (forall_inode rfl rfl rfl rfl fun _ => rfl) rfl fun _ => rfl

/-- The state in which `link` comes to the entry of the new name. -/
abbrev entering (count : Nat) : Fs :=
  (stage (count + 2) (filled (linked count) (29 - count)) {} false 1).counting 2 1 0

theorem link_entering {count : Nat} (small : count < 4480) :
    perform initproc (.link pathRootF (newName count)) (filling count, ()) = (do
        let linked ← dirlink 1 (newName count) 2
        if linked < 0 then do
          iput 1
          linkBad 2
        else do
          iput 1
          iput 2
          pure 0 : TreeM Int) (entering count, ()) := by
  have start := returns_of_outcome (linkStart_stage (count + 1) (29 - count)
    ((List.range count).map fun n => ⟨2, newName n⟩))
  rw [Nat.mod_eq_of_lt (by omega)] at start
  let begun := (stage (count + 2) (filled (linked count) (29 - count)) {} false 1).counting 1 1 0
  have parent : nameiparent 1 (newName count) (begun, ()) = .ok (some (1, newName count)) (begun.setRef 1 2, ()) :=
    nameiparent_run (skipelem_newName small) (fun same => newByte_ne (by decide) (by omega)
      (Option.some.inj same)) rfl rfl
  have same : begun.setRef 1 2 = entering count :=
    state_eq (forall_inode rfl rfl rfl rfl fun _ => rfl) rfl fun _ => rfl
  rw [same] at parent
  refine (link_start _ _ _ _).trans ((bind_ok start).trans ((bind_ok parent).trans ?_))
  exact bind_ok rfl

theorem dirlink_entering {count : Nat} (small : count < 4480) : dirlink 1 (newName count) 2 (entering count, ()) =
      if MAXENTRIES ≤ 3 + count then .error (.panic "dirlink") (entering count, ())
      else .ok 0 ((entering count).setNode 1 (filled (linked (count + 1)) (29 - count - 1)), ()) := by
  have looked : dirlookup 1 (newName count) (entering count, ()) = .ok none (entering count, ()) := by
    refine (bind_ok rfl).trans ((congrFun (if_neg (not_not.mpr rfl)) _).trans ?_)
    have absent : ((entering count).nodes 1).entries[((entering count).nodes 1).position
        (newName count)]? = none := filled_absent (linked_absent small)
    rw [absent]
    rfl
  have vacancy : ((entering count).nodes 1).vacancy = 3 + count := by
    refine (filled_vacancy (linked_live count)).trans ?_
    rw [linked, List.length_append, List.length_map, List.length_range]
    rfl
  have written : ((entering count).nodes 1).putEntry (3 + count) ⟨2, newName count⟩ =
      filled (linked (count + 1)) (29 - count - 1) := by
    have next : linked (count + 1) = linked count ++ [⟨2, newName count⟩] := by
      simp [linked, List.range_succ]
    rw [next, ← filled_put, ← filled_vacancy (linked_live count), ← vacancy]
    rfl
  refine (bind_ok looked).trans ((bind_ok rfl).trans ?_)
  rw [vacancy, written]
  split
  · rfl
  · rfl

theorem filling_next {count : Nat} (small : count < 4477) : (filling count).Next (filling (count + 1)) := by
  have made := dirlink_entering (Nat.lt_trans small (by decide))
  have room : ¬ MAXENTRIES ≤ 3 + count := by
    unfold MAXENTRIES
    omega
  rw [if_neg room] at made
  have runs := (link_entering (Nat.lt_trans small (by decide))).trans (bind_ok made)
  have landed : (((entering count).setNode 1
      (filled (linked (count + 1)) (29 - count - 1))).put 1).put 2 = filling (count + 1) := by
    exact state_eq (forall_inode rfl rfl rfl rfl fun _ => rfl) rfl fun _ => rfl
  have ends := runs.trans ((bind_ok (iput_run _ 1)).trans (bind_ok (iput_run _ 2)))
  rw [landed] at ends
  exact .of_run ends fun _ => nofun

theorem filling_of_boot (count : Nat) (small : count ≤ 4477) :
    Relation.ReflTransGen Fs.Next (Fs.boot [(nameF, [])]) (filling count) := by
  induction count with
  | zero => exact idle_of_boot
  | succ count ih => exact (ih (Nat.le_of_lt small)).tail (filling_next small)

/-- After 4477 links the root is full, and the next one panics. -/
theorem full_directory_panics : ∃ fs, Relation.ReflTransGen Fs.Next (Fs.boot [(nameF, [])]) fs ∧
      ∃ call : Call, call.makes = true ∧ ¬ Graceful fs initproc call := by
  refine ⟨filling 4477, filling_of_boot 4477 (by decide), .link pathRootF (newName 4477), rfl, ?_⟩
  intro graceful
  have stopped := dirlink_entering (by decide : 4477 < 4480)
  have runs := link_entering (by decide : 4477 < 4480)
  simp only [bind, EStateM.bind, stopped] at runs
  exact (graceful.calm _ _ runs).1 rfl

end Xv6Dedup.Tree
