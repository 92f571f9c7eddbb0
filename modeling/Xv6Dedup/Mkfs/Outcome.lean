import Xv6Dedup.Mkfs.Building

/-!
# What `mkfs` accepts

Whether the inodes and sectors of an image stay in the areas that the superblock
gives them, and whether the root directory has all its blocks.
-/

set_option autoImplicit false

namespace Xv6Dedup.Mkfs

open Function Program

/-! ## Runs of the program -/

variable {files : List InputFile} {image : Build}

theorem built_of_mkfs (ran : mkfs files = some image) (few : files.length + 2 ≤ INODELIMIT) :
    ∃ build, Built (layoutOf files) build ∧ build.freeinode = files.length + 2 ∧ image = build.finished := by
  unfold mkfs at ran
  cases outcome : main files ({}, ()) with
  | ok value next =>
    rw [outcome] at ran
    obtain ⟨⟨build, built, number, finished⟩, _⟩ := (main_wp few).returned trivial outcome
    exact ⟨build, built, number, (Option.some.inj ran).symm.trans finished⟩
  | error reason next =>
    rw [outcome] at ran
    cases ran

theorem mkfs_of_acceptable (acceptable : Acceptable files) (few : files.length + 2 ≤ INODELIMIT) :
    ∃ image, mkfs files = some image := by
  unfold mkfs
  cases outcome : main files ({}, ()) with
  | ok value next => exact ⟨next.1, rfl⟩
  | error reason next => exact absurd acceptable ((main_wp few).stopped trivial outcome)

/-! ## Numbering -/

def Unnumbered {α : Type} (program : MkfsM α) : Prop :=
  ∀ build, MkWp program build
    (fun _ next => next.freeinode = build.freeinode ∧ next.inums = build.inums) (fun _ _ => True)

namespace Unnumbered

variable {α β : Type}

theorem pure (value : α) : Unnumbered (Pure.pure value : MkfsM α) := fun _ => Wp.pure ⟨rfl, rfl⟩

theorem throw (reason : Failure) : Unnumbered (MonadExcept.throw reason : MkfsM α) :=
  fun _ => Wp.throw trivial

theorem bind {first : MkfsM α} {rest : α → MkfsM β} (before : Unnumbered first)
    (after : ∀ value, Unnumbered (rest value)) : Unnumbered (first >>= rest) := by
  intro build
  refine Wp.seq (before build) ?_
  intro value middle kept
  exact (after value middle).post fun _ next both =>
    ⟨both.1.trans kept.1, both.2.trans kept.2⟩

theorem ite {condition : Prop} [Decidable condition] {yes no : MkfsM α} (left : Unnumbered yes)
    (right : Unnumbered no) : Unnumbered (if condition then yes else no) :=
  fun build => Wp.ite (fun _ => left build) fun _ => right build

theorem visible : Unnumbered (Program.visible : MkfsM Build) := fun _ => Wp.visible ⟨rfl, rfl⟩

theorem change {update : Build → Build} (number : ∀ build, (update build).freeinode = build.freeinode)
    (inums : ∀ build, (update build).inums = build.inums) : Unnumbered (Program.change update : MkfsM Unit) :=
  fun build => Wp.change ⟨number build, inums build⟩

theorem wsect (sec : Nat) (buf : Block) : Unnumbered (wsect sec buf) :=
  change (fun _ => rfl) fun _ => rfl

theorem rsect (sec : Nat) : Unnumbered (rsect sec) :=
  bind visible fun _ => ite (pure _) (throw _)

theorem winode (inum : Nat) (ip : Dinode) : Unnumbered (winode inum ip) :=
  bind (rsect _) fun _ => wsect _ _

theorem rinode (inum : Nat) : Unnumbered (rinode inum) := bind (rsect _) fun _ => pure _

theorem balloc (used : Nat) : Unnumbered (balloc used) := ite (wsect _ _) (throw _)

theorem takeBlock : Unnumbered takeBlock :=
  bind visible fun _ => bind (change (fun _ => rfl) fun _ => rfl) fun _ => pure _

theorem wappend (sec : Nat) (buf : Block) : Unnumbered (wappend sec buf) :=
  bind (wsect _ _) fun _ => change (fun _ => rfl) fun _ => rfl

theorem appendAddr (din : Dinode) (index : Nat) : Unnumbered (appendAddr din index) :=
  ite (bind takeBlock fun _ => pure _) (pure _)

theorem appendSector (din : Dinode) (fbn : Nat) : Unnumbered (appendSector din fbn) := by
  refine ite (bind (appendAddr _ _) fun _ => pure _) (bind (appendAddr _ _) fun _ =>
    bind (rsect _) fun _ => ite (bind takeBlock fun _ => bind (wappend _ _) fun _ => pure _) (pure _))

theorem iappendLoop (p : Nat → Byte) (count tot : Nat) (din : Dinode) (off n : Nat) :
    Unnumbered (iappendLoop p count tot din off n) := by
  induction count generalizing tot din off n with
  | zero => exact pure _
  | succ count ih =>
    refine ite (pure _) (ite (bind (appendSector _ _) fun _ => bind (rsect _) fun _ =>
      bind (wappend _ _) fun _ => ih _ _ _ _) (throw _))

theorem iappend (inum : Nat) (p : Nat → Byte) (n : Nat) : Unnumbered (iappend inum p n) :=
  bind (rinode _) fun _ => bind (iappendLoop _ _ _ _ _ _) fun _ => winode _ _

theorem appendPieces (inum : Nat) (pieces : List Piece) : Unnumbered (appendPieces inum pieces) := by
  induction pieces with
  | nil => exact pure _
  | cons piece rest ih => exact bind (iappend _ _ _) fun _ => ih

theorem zeroSectors (count start : Nat) : Unnumbered (zeroSectors count start) := by
  induction count generalizing start with
  | zero => exact pure _
  | succ count ih => exact bind (wsect _ _) fun _ => ih _

theorem format : Unnumbered format :=
  bind (change (fun _ => rfl) fun _ => rfl) fun _ =>
    ite (bind (zeroSectors _ _) fun _ => wsect _ _) (throw _)

theorem fixRoot (rootino : Nat) : Unnumbered (fixRoot rootino) :=
  bind (rinode _) fun _ => winode _ _

end Unnumbered

/-- The program allocates the next `count` inodes. -/
def Numbers {α : Type} (count : Nat) (program : MkfsM α) : Prop :=
  ∀ build, MkWp program build (fun _ next => next.freeinode = build.freeinode + count ∧
      next.inums = build.inums ++ List.range' build.freeinode count) (fun _ _ => True)

namespace Numbers

variable {α β : Type} {count more : Nat}

theorem none {program : MkfsM α} (unnumbered : Unnumbered program) : Numbers 0 program := by
  intro build
  refine (unnumbered build).post ?_
  intro _ next kept
  rw [List.range'_zero, List.append_nil]
  exact kept

theorem bind {first : MkfsM α} {rest : α → MkfsM β} (before : Numbers count first)
    (after : ∀ value, Numbers more (rest value)) : Numbers (count + more) (first >>= rest) := by
  intro build
  refine Wp.seq (before build) ?_
  rintro value middle ⟨number, inums⟩
  refine (after value middle).post ?_
  rintro _ next ⟨lastNumber, lastInums⟩
  refine ⟨by rw [lastNumber, number, Nat.add_assoc], ?_⟩
  rw [lastInums, inums, number, List.append_assoc, List.range'_append_1]

theorem ialloc (type : Nat) : Numbers 1 (ialloc type) := by
  intro build
  refine Wp.see (Wp.set (Wp.seq (Unnumbered.winode _ _ _) ?_))
  rintro _ next ⟨number, inums⟩
  exact Wp.pure ⟨number, inums⟩

theorem throw (reason : Failure) : Numbers count (MonadExcept.throw reason : MkfsM α) :=
  fun _ => Wp.throw trivial

theorem ite {condition : Prop} [Decidable condition] {yes no : MkfsM α} (left : Numbers count yes)
    (right : Numbers count no) : Numbers count (if condition then yes else no) :=
  fun build => Wp.ite (fun _ => left build) fun _ => right build

theorem addFile (rootino : Nat) (file : InputFile) : Numbers 1 (addFile rootino file) := by
  refine ite (throw _) ?_
  cases file.reads with
  | none => exact throw _
  | some pieces =>
    exact (ialloc _).bind fun _ => none ((Unnumbered.iappend _ _ _).bind fun _ =>
      Unnumbered.appendPieces _ _)

theorem addFiles (rootino : Nat) (files : List InputFile) : Numbers files.length (addFiles rootino files) := by
  induction files with
  | nil => exact none (.pure _)
  | cons file rest ih =>
    rw [List.length_cons, Nat.add_comm]
    exact (addFile _ _).bind fun _ => ih

theorem main (files : List InputFile) : Numbers (files.length + 1) (main files) := by
  have body : ∀ rootino, Numbers files.length (do
      Mkfs.iappend rootino (direntOf rootino [46]).byteAt 16
      Mkfs.iappend rootino (direntOf rootino [46, 46]).byteAt 16
      Mkfs.addFiles rootino files
      Mkfs.fixRoot rootino
      let build ← visible
      Mkfs.balloc build.usedblocks) := by
    intro rootino
    have last : Unnumbered (do
        Mkfs.fixRoot rootino
        let build ← visible
        Mkfs.balloc build.usedblocks) :=
      (Unnumbered.fixRoot _).bind fun _ => Unnumbered.visible.bind fun _ => Unnumbered.balloc _
    have general := (none (Unnumbered.iappend rootino (direntOf rootino [46]).byteAt 16)).bind
      fun _ => (none (Unnumbered.iappend rootino (direntOf rootino [46, 46]).byteAt 16)).bind
      fun _ => (addFiles rootino files).bind fun _ => none last
    simpa using general
  have whole : Numbers (0 + (1 + files.length)) (Mkfs.main files) :=
    (none Unnumbered.format).bind fun _ => (ialloc T_DIR).bind fun rootino =>
      ite (body rootino) (throw _)
  rw [Nat.zero_add, Nat.add_comm] at whole
  exact whole

end Numbers

theorem inums_of_mkfs (ran : mkfs files = some image) : image.inums = List.range' 1 (files.length + 1) := by
  unfold mkfs at ran
  cases outcome : main files ({}, ()) with
  | ok value next =>
    rw [outcome] at ran
    obtain ⟨⟨_, inums⟩, _⟩ := (Numbers.main files {}).returned trivial outcome
    rw [← Option.some.inj ran, inums]
    rfl
  | error reason next =>
    rw [outcome] at ran
    cases ran

/-! ## The areas of the image -/

/-- The sectors that the root directory and the files take. -/
def dataSectors (files : List InputFile) : Nat :=
  sectorsFor (16 * (files.length + 2)) + (files.map fun file => sectorsFor file.content.length).sum

theorem demand_layoutOf (few : files.length + 2 ≤ INODELIMIT) : demand (layoutOf files) = dataSectors files := by
  induction files using List.reverseRecOn with
  | nil =>
    have empty : sectorsFor (([] : List Byte).length) = 0 := rfl
    have nothing : demand (fun _ => []) = 0 := Finset.sum_eq_zero fun _ _ => empty
    have root : layoutOf [] = Function.update (fun _ => []) ROOTINO (rootBytes []) := by
      funext inum
      by_cases isRoot : inum = ROOTINO
      · rw [isRoot, update_self, layoutOf_root]
      · simp [layoutOf, isRoot]
    have changed := demand_update (fun _ => []) ROOTINO (rootBytes []) (by decide)
    rw [← root, nothing, length_rootBytes, empty, Nat.add_zero, Nat.zero_add] at changed
    rw [dataSectors, List.map_nil, List.sum_nil, Nat.add_zero, changed]
  | append_singleton done file ih =>
    rw [List.length_append] at few
    have before := ih (by omega)
    have grown := demand_update (layoutOf done) ROOTINO (layoutOf done ROOTINO ++
      direntBytes (direntOf (done.length + 2) file.target)) (by decide)
    rw [← entered] at grown
    have filled := demand_update (entered (layoutOf done) (direntOf (done.length + 2) file.target)) (done.length + 2)
      file.content few
    have fresh : entered (layoutOf done) (direntOf (done.length + 2) file.target) (done.length + 2) =
        layoutOf done (done.length + 2) := update_of_ne (Nat.succ_succ_ne_one _) ..
    rw [layoutOf_concat, fresh, layoutOf_file, List.getElem?_eq_none (Nat.le_refl _)] at filled
    rw [layoutOf_root, List.length_append, length_rootBytes, length_direntBytes] at grown
    have empty : sectorsFor (([] : List Byte).length) = 0 := rfl
    simp only [Option.map_none, Option.getD_none, empty] at filled
    simp only [dataSectors, List.length_append, List.length_singleton, List.map_append,
      List.sum_append, List.map_cons, List.map_nil, List.sum_cons, List.sum_nil] at before ⊢
    have entry : 16 * (done.length + 2) + 16 = 16 * (done.length + 1 + 2) := by omega
    rw [entry] at grown
    omega

/-- Every inode is one of the superblock's, and what was written for the
contents of files lies in the data area. -/
def Contained (image : Build) : Prop :=
  (∀ inum ∈ image.inums, inum < ninodes) ∧ ∀ sector ∈ image.appended, DATASTART ≤ sector ∧ sector < size - nlog

theorem mem_appended {contents : Nat → List Byte} {build : Build} (built : Built contents build) (sector : Nat) :
    sector ∈ build.appended ↔ DATASTART ≤ sector ∧ sector < DATASTART + demand contents := by
  obtain ⟨files, filed, _⟩ := built.files
  rw [← built.freeblock]
  constructor
  · intro member
    obtain ⟨lower, upper, _⟩ := filed.laid.appended sector member
    exact ⟨lower, upper⟩
  · rintro ⟨lower, upper⟩
    exact filed.written sector lower upper

theorem contained_iff {files : List InputFile} {image : Build} (ran : mkfs files = some image) :
    Contained image ↔ files.length + 1 < ninodes ∧ dataSectors files ≤ nblocks := by
  have inums := inums_of_mkfs ran
  have numbered : (∀ inum ∈ image.inums, inum < ninodes) ↔ files.length + 1 < ninodes := by
    rw [inums]
    simp only [List.mem_range'_1]
    exact ⟨fun all => all _ ⟨by omega, by omega⟩, fun few inum range => by omega⟩
  unfold Contained
  rw [numbered]
  refine and_congr_right fun few => ?_
  have below : files.length + 2 ≤ INODELIMIT := by
    have limit : INODELIMIT = 232 := rfl
    simp only [ninodes] at few
    omega
  obtain ⟨build, built, _, rfl⟩ := built_of_mkfs ran below
  change (∀ sector ∈ build.appended, _) ↔ _
  simp only [mem_appended built, demand_layoutOf below, DATASTART, size, nlog, LOGSIZE, nblocks]
  constructor
  · intro inside
    by_contra many
    have last := inside 1016 ⟨by omega, by omega⟩
    omega
  · omega

/-! ## The finished image -/

def roundedSize (length : Nat) : Nat := (length / BSIZE + 1) * BSIZE

/-- The finished image holds the given files. Inodes whose sector is the
bitmap's are lost. -/
structure Imaged (files : List InputFile) (laidFiles : Nat → LaidFile) (image : Build) : Prop where
  laid : Laid laidFiles image
  free : image.freeblock = DATASTART + dataSectors files
  inodes : ∀ inum < INODELIMIT, IBLOCK inum ≠ BITMAP → dinodeOf image.disk inum = (laidFiles inum).inode
  content : ∀ inum, (laidFiles inum).content = layoutOf files inum
  tight : ∀ inum, Tight (laidFiles inum) (layoutOf files inum).length
  kind : ∀ inum, SameKind (kindOf (files.length + 2) inum) (laidFiles inum).inode
  size : ∀ inum, (laidFiles inum).inode.size =
    if inum = ROOTINO then roundedSize (rootBytes files).length else (layoutOf files inum).length
  bitmap : image.disk BITMAP = bitmapBlock (List.range image.freeblock)
  super : image.disk 1 = superBlock layout

theorem imaged_of_mkfs (ran : mkfs files = some image) (few : files.length + 2 ≤ INODELIMIT) :
    ∃ laidFiles, Imaged files laidFiles image := by
  obtain ⟨build, built, number, rfl⟩ := built_of_mkfs ran few
  obtain ⟨laidFiles, filed, settled⟩ := built.files
  have root := filed.inodes ROOTINO (by decide) (by simp)
  have opened : Filed laidFiles (some ROOTINO) build :=
    ⟨filed.laid, filed.written, fun inum bounded _ => filed.inodes inum bounded (by simp)⟩
  have length : (laidFiles ROOTINO).inode.size = (rootBytes files).length := by
    rw [(settled ROOTINO).size, layoutOf_root]
  have small : roundedSize (rootBytes files).length < 4294967296 := by
    have limit : INODELIMIT = 232 := rfl
    rw [length_rootBytes, roundedSize]
    simp only [BSIZE]
    omega
  have closed := opened.close (by decide) small
  have finished : build.finished = { build.putInode ROOTINO
        ((laidFiles ROOTINO).withSize (roundedSize (rootBytes files).length)).inode with
      disk := Function.update (build.putInode ROOTINO
        ((laidFiles ROOTINO).withSize (roundedSize (rootBytes files).length)).inode).disk BITMAP
          (bitmapBlock (List.range build.freeblock)) } := by
    have sectors : max (max build.sectors (i2b ROOTINO + 1)) (BITMAP + 1) = max build.sectors (i2b ROOTINO + 1) := by
      rw [built.sectors]
      decide
    simp only [Build.finished, root, length, filed.laid.used, Build.putInode, sectors, roundedSize, LaidFile.withSize]
  have disk : ∀ sector ≠ BITMAP, build.finished.disk sector = (build.putInode ROOTINO
      ((laidFiles ROOTINO).withSize (roundedSize (rootBytes files).length)).inode).disk sector := by
    intro sector different
    rw [finished]
    exact update_of_ne different _ _
  refine ⟨Function.update laidFiles ROOTINO ((laidFiles ROOTINO).withSize (roundedSize (rootBytes files).length)), ?_⟩
  constructor
  · rw [finished]
    refine closed.laid.congr (fun sector data => update_of_ne ?_ _ _) rfl rfl rfl rfl
    rintro rfl
    exact absurd data (by decide)
  · rw [← demand_layoutOf few, finished]
    exact built.freeblock
  · intro inum bounded notBitmap
    rw [dinodeOf_congr (disk _ notBitmap)]
    exact closed.inodes inum bounded (by simp)
  · intro inum
    by_cases isRoot : inum = ROOTINO
    · rw [isRoot]
      exact (settled ROOTINO).same
    · rw [update_of_ne isRoot]
      exact (settled inum).same
  · intro inum
    by_cases isRoot : inum = ROOTINO
    · rw [isRoot]
      obtain ⟨blocks, tabled⟩ := (settled ROOTINO).tight
      exact ⟨blocks, tabled⟩
    · rw [update_of_ne isRoot]
      exact (settled inum).tight
  · intro inum
    rw [← number]
    by_cases isRoot : inum = ROOTINO
    · rw [isRoot]
      obtain ⟨type, major, minor, nlink⟩ := (settled ROOTINO).sameKind
      exact ⟨type, major, minor, nlink⟩
    · rw [update_of_ne isRoot]
      exact (settled inum).sameKind
  · intro inum
    by_cases isRoot : inum = ROOTINO
    · rw [isRoot, update_self, if_pos rfl]
      rfl
    · rw [update_of_ne isRoot, if_neg isRoot]
      exact (settled inum).size
  · rw [finished]
    simp only [update_self, Build.putInode]
  · exact built.super

/-! ## The root directory -/

/-- Every block below the size of the root directory is there. -/
def RootMapped (image : Build) : Prop :=
  ∀ index < (dinodeOf image.disk ROOTINO).size / BSIZE,
    blockPointer image.disk (dinodeOf image.disk ROOTINO) index ≠ 0

theorem Imaged.rootMapped_iff {laidFiles : Nat → LaidFile} (imaged : Imaged files laidFiles image) :
    RootMapped image ↔ (files.length + 2) % 32 ≠ 0 := by
  have inode := imaged.inodes ROOTINO (by decide) (by decide)
  have present := (imaged.laid.holds ROOTINO).present
  have length : (layoutOf files ROOTINO).length = 16 * (files.length + 2) := by
    rw [layoutOf_root, length_rootBytes]
  unfold RootMapped
  rw [inode]
  simp only [present]
  rw [(imaged.tight ROOTINO).blocks, imaged.size, if_pos rfl, length_rootBytes, roundedSize]
  simp only [BSIZE]
  constructor
  · intro mapped multiple
    have last := mapped (16 * (files.length + 2) / 512) (by omega)
    omega
  · omega

theorem root_mapped_iff {files : List InputFile} {image : Build} (ran : mkfs files = some image)
    (few : files.length ≤ 230) : RootMapped image ↔ (files.length + 2) % 32 ≠ 0 := by
  obtain ⟨laidFiles, imaged⟩ := imaged_of_mkfs ran (Nat.add_le_add_right few 2)
  exact imaged.rootMapped_iff

/-! ## Empty files -/

def digit (value : Fin 10) : Byte := BitVec.ofNat 8 (48 + value)

def numberedFile (number : Nat) : InputFile where
  name := [digit (Fin.ofNat 10 (number / 100)), digit (Fin.ofNat 10 (number / 10)), digit (Fin.ofNat 10 number)]
  noNul := by
    have nonzero : ∀ value, 0#8 ≠ digit value := by decide
    simp [nonzero]
  reads := some []

def emptyFiles (count : Nat) : List InputFile := (List.range count).map numberedFile

theorem mkfs_emptyFiles {count : Nat} (few : count ≤ 230) : ∃ image, mkfs (emptyFiles count) = some image := by
  have length : (emptyFiles count).length = count := by simp [emptyFiles]
  have below : (emptyFiles count).length + 2 ≤ INODELIMIT := by
    rw [length]
    exact Nat.add_le_add_right few 2
  have noSlash : ∀ value, slash ≠ digit value := by decide
  have contents : ∀ file ∈ emptyFiles count, file.content = [] := by
    simp [emptyFiles, numberedFile, InputFile.content]
  have sectors : (emptyFiles count).map (fun file => sectorsFor file.content.length) = List.replicate count 0 := by
    rw [List.eq_replicate_iff]
    refine ⟨by simp [length], ?_⟩
    intro amount member
    obtain ⟨file, inside, rfl⟩ := List.mem_map.mp member
    rw [contents file inside]
    rfl
  refine mkfs_of_acceptable ⟨?_, ?_, ?_, ?_⟩ below
  · simp [emptyFiles, numberedFile, noSlash]
  · simp [emptyFiles, numberedFile]
  · intro inum
    unfold layoutOf
    split
    · rw [length_rootBytes]
      simp only [MAXFILE, NDIRECT, NINDIRECT, BSIZE]
      omega
    · split
      · cases found : (emptyFiles count)[inum - 2]? with
        | none => exact Nat.zero_le _
        | some file =>
          rw [Option.map_some, contents file (List.mem_of_getElem? found)]
          exact Nat.zero_le _
      · exact Nat.zero_le _
  · have none : (List.replicate count 0).sum = 0 := by simp
    rw [demand_layoutOf below, dataSectors, sectors, sectorsFor]
    simp only [size, DATASTART, BSIZE, NDIRECT]
    split <;> omega

/-- Inode 200 is past the end of the inodes that the superblock declares. -/
theorem emptyFiles_not_contained : ∃ image, mkfs (emptyFiles 199) = some image ∧ ¬ Contained image := by
  obtain ⟨image, ran⟩ := mkfs_emptyFiles (show 199 ≤ 230 by decide)
  refine ⟨image, ran, fun contained => ?_⟩
  have last := contained.1 200
  rw [inums_of_mkfs ran] at last
  exact absurd (last (by simp [emptyFiles])) (by decide)

theorem contained_iff_emptyFiles : ∃ image, mkfs (emptyFiles 1) = some image ∧
    (Contained image ↔ (emptyFiles 1).length + 1 < ninodes ∧ dataSectors (emptyFiles 1) ≤ nblocks) := by
  obtain ⟨image, ran⟩ := mkfs_emptyFiles (show 1 ≤ 230 by decide)
  exact ⟨image, ran, contained_iff ran⟩

/-- With `.`, `..` and 30 files the entries fill one block. -/
theorem emptyFiles_root_unmapped : ∃ image, mkfs (emptyFiles 30) = some image ∧ ¬ RootMapped image := by
  obtain ⟨image, ran⟩ := mkfs_emptyFiles (show 30 ≤ 230 by decide)
  obtain ⟨laidFiles, imaged⟩ := imaged_of_mkfs ran (by decide)
  refine ⟨image, ran, fun mapped => ?_⟩
  exact imaged.rootMapped_iff.mp mapped (by decide)

theorem root_mapped_iff_emptyFiles : ∃ image, mkfs (emptyFiles 1) = some image ∧ (emptyFiles 1).length ≤ 230 ∧
    (RootMapped image ↔ ((emptyFiles 1).length + 2) % 32 ≠ 0) := by
  obtain ⟨image, ran⟩ := mkfs_emptyFiles (show 1 ≤ 230 by decide)
  exact ⟨image, ran, by decide, root_mapped_iff ran (by decide)⟩

/-! ## The image without files -/

/-- The sectors of a file system with an empty root directory. -/
def bareDisk : Blocks := fun sector =>
  if sector = 1 then superBlock layout
  else if sector = 2 then
    putDinode Bytes.zero 1 ({ type := T_DIR, nlink := 1, size := 512 : Dinode }.setAddr 0 31)
  else if sector = 28 then bitmapBlock (List.range 32)
  else if sector = 31 then
    (Bytes.zero.splice 0 16 (direntOf 1 [46]).byteAt).splice 16 16 (direntOf 1 [46, 46]).byteAt
  else Bytes.zero

theorem bareDisk_types : ∀ inum : Fin NINODES, (dinodeOf bareDisk inum).type ≠ 0 → inum.val = 1 := by
  decide +kernel

theorem bareDisk_root : dinodeOf bareDisk 1 = { type := T_DIR, nlink := 1, size := 512 : Dinode }.setAddr 0 31 :=
  dinodeAt_putDinode_same _ (by decide) ⟨by decide, by decide, by decide, by decide, by decide, by decide⟩

/-- The part of `main` after `format`. -/
private def layRoot : MkfsM Unit := do
  let rootino ← ialloc T_DIR
  if rootino = ROOTINO then do
    iappend rootino (direntOf rootino [46]).byteAt 16
    iappend rootino (direntOf rootino [46, 46]).byteAt 16
    addFiles rootino []
    fixRoot rootino
    let build ← visible
    balloc build.usedblocks
  else throw (.assert "rootino == ROOTINO")

private def reached : EStateM.Result Failure (Build × Unit) Unit → Build
  | .ok _ build => build.1
  | .error _ build => build.1

private def laidRoot : Build := reached (layRoot (formatted, ()))

private theorem laidRoot_writes : ∃ made first grown second larger rounded bits,
    laidRoot.disk = Function.update (Function.update (Function.update (Function.update
      (Function.update (Function.update (Function.update formatted.disk 2 made) 31 first) 2 grown)
      31 second) 2 larger) 2 rounded) 28 bits :=
  ⟨_, _, _, _, _, _, _, rfl⟩

private theorem laidRoot_disk : laidRoot.disk = bareDisk := by
  have inodes : ∀ index : Fin BSIZE, laidRoot.disk 2 index = bareDisk 2 index := by decide +kernel
  have bitmap : ∀ index : Fin BSIZE, laidRoot.disk 28 index = bareDisk 28 index := by decide +kernel
  have entries : ∀ index : Fin BSIZE, laidRoot.disk 31 index = bareDisk 31 index := by decide +kernel
  obtain ⟨_, _, _, _, _, _, _, writes⟩ := laidRoot_writes
  funext sector
  by_cases inode : sector = 2
  · rw [inode]
    exact funext inodes
  by_cases bits : sector = 28
  · rw [bits]
    exact funext bitmap
  by_cases root : sector = 31
  · rw [root]
    exact funext entries
  · simp only [writes, update_of_ne inode, update_of_ne bits,
      update_of_ne root, bareDisk, inode, bits, root, if_false, formatted,
      update_apply]

theorem mkfs_nil : ∃ image, mkfs [] = some image ∧ image.disk = bareDisk := by
  have formats : MkWp format {} (fun _ next => next = formatted) (fun _ _ => False) := format_wp rfl
  have noted : (fun _ : Unit => True) () := trivial
  obtain ⟨_, next, ran, same, _⟩ := formats.total noted
  have parts : main [] = (format >>= fun _ => layRoot) := rfl
  have whole : main [] ({}, ()) = layRoot (formatted, ()) := by
    rw [parts, bind_ok ran, show next = (formatted, ()) from Prod.ext same rfl]
  have returns : (returned (layRoot (formatted, ()))).isSome = true := by decide +kernel
  cases laid : layRoot (formatted, ()) with
  | ok _ image =>
    have same : laidRoot = image.1 := congrArg reached laid
    refine ⟨image.1, ?_, (congrArg Build.disk same).symm.trans laidRoot_disk⟩
    unfold mkfs
    rw [whole.trans laid]
  | error reason image =>
    rw [laid] at returns
    cases returns

end Xv6Dedup.Mkfs
