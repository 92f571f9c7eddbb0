import Mathlib.Algebra.Order.BigOperators.Group.Finset
import Xv6Dedup.Mkfs.Appending

/-!
# The image that `mkfs` builds

The contents of every inode after each step of `main`, as long as the inodes
stay below the data area.
-/

set_option autoImplicit false

namespace Xv6Dedup.Mkfs

open Function Program

/-- The fields that `ialloc` gives an inode; zero for inodes not allocated. -/
def kindOf (freeinode inum : Nat) : Dinode :=
  if inum = 0 ∨ freeinode ≤ inum then {}
  else { type := if inum = ROOTINO then T_DIR else T_FILE, nlink := 1 }

structure Settled (kind : Dinode) (content : List Byte) (file : LaidFile) : Prop where
  sameKind : SameKind kind file.inode
  same : file.content = content
  size : file.inode.size = content.length
  tight : Tight file content.length

structure Built (contents : Nat → List Byte) (build : Build) : Prop where
  files : ∃ files, Filed files none build ∧
    ∀ inum, Settled (kindOf build.freeinode inum) (contents inum) (files inum)
  super : build.disk 1 = superBlock layout
  positive : 1 ≤ build.freeinode
  bounded : build.freeinode ≤ INODELIMIT
  fresh : ∀ inum, build.freeinode ≤ inum → contents inum = []
  inums : build.inums = List.range' 1 (build.freeinode - 1)
  spare : ∀ sector < DATASTART, i2b (build.freeinode - 1) < sector → build.disk sector = Bytes.zero

def demand (contents : Nat → List Byte) : Nat :=
  ∑ inum ∈ Finset.range INODELIMIT, sectorsFor (contents inum).length

theorem demand_update (contents : Nat → List Byte) (inum : Nat) (content : List Byte) (bounded : inum < INODELIMIT) :
    demand (update contents inum content) + sectorsFor (contents inum).length =
      demand contents + sectorsFor content.length := by
  have general := sum_update (fun bytes : List Byte => sectorsFor bytes.length) contents content bounded
  exact general

section Steps

variable {contents final : Nat → List Byte} {build : Build} {inum : Nat} {Fits : Prop}

def Room (final : Nat → List Byte) : Prop :=
  (∀ inum, (final inum).length ≤ MAXFILE * BSIZE) ∧ DATASTART + demand final ≤ size

def Within (contents final : Nat → List Byte) : Prop :=
  ∀ inum, (contents inum).length ≤ (final inum).length

theorem Within.room (within : Within contents final) (room : Room final) : Room contents := by
  refine ⟨fun inum => Nat.le_trans (within inum) (room.1 inum), ?_⟩
  have less : demand contents ≤ demand final :=
    Finset.sum_le_sum fun inum _ => sectorsFor_mono (within inum)
  have fits := room.2
  omega

theorem Built.sectors (built : Built contents build) : build.sectors = size := by
  obtain ⟨files, filed, _⟩ := built.files
  exact filed.laid.sectors

theorem Built.freeblock (built : Built contents build) : build.freeblock = DATASTART + demand contents := by
  obtain ⟨files, filed, settled⟩ := built.files
  have sums : ∑ other ∈ Finset.range INODELIMIT, (files other).sectors = demand contents :=
    Finset.sum_congr rfl fun other _ => (settled other).tight.sectors
  rw [filed.laid.free, sums]

private theorem i2b_lt_size (bounded : inum < INODELIMIT) : i2b inum < size := by
  have below := iblock_lt_dataStart bounded
  simp only [i2b, IBLOCK, DATASTART, size] at *
  omega

/-- The image after `winode`. -/
def Build.putInode (build : Build) (inum : Nat) (inode : Dinode) : Build :=
  { build with
    disk := update build.disk (i2b inum) (putDinode (build.disk (i2b inum)) (inum % IPB) inode)
    sectors := max build.sectors (i2b inum + 1) }

theorem Build.putInode_disk_of_ne (build : Build) (inode : Dinode) {sector : Nat}
    (different : sector ≠ i2b inum) : (build.putInode inum inode).disk sector = build.disk sector :=
  update_of_ne different _ _

variable {Stops : Failure → Build → Prop}

theorem winode_wp {Post : Unit → Build → Prop} {inode : Dinode}
    (inside : i2b inum < build.sectors) (next : Post () (build.putInode inum inode)) :
    MkWp (winode inum inode) build Post Stops :=
  Wp.bind (rsect_wp (fun _ => Wp.change next) fun outside => absurd inside outside)

theorem rinode_wp {Post : Dinode → Build → Prop} (inside : i2b inum < build.sectors)
    (next : Post (dinodeOf build.disk inum) build) : MkWp (rinode inum) build Post Stops :=
  Wp.bind (rsect_wp (fun _ => Wp.pure next) fun outside => absurd inside outside)

variable {files : Nat → LaidFile}

theorem Laid.putInode (laid : Laid files build) (bounded : inum < INODELIMIT) (inode : Dinode) :
    Laid files (build.putInode inum inode) := by
  have below := iblock_lt_dataStart bounded
  refine laid.congr (fun sector data => build.putInode_disk_of_ne inode ?_) ?_ rfl rfl rfl
  · intro same
    rw [same] at data
    exact Nat.not_lt.mpr data below
  · refine Nat.max_eq_left ?_
    rw [laid.sectors]
    exact i2b_lt_size bounded

def LaidFile.withSize (file : LaidFile) (length : Nat) : LaidFile :=
  { file with inode := { file.inode with size := length } }

private theorem Laid.setSize (laid : Laid files build) {length : Nat} (bounded : inum < INODELIMIT)
    (small : length < 4294967296) : Laid (update files inum ((files inum).withSize length)) build := by
  obtain ⟨fits, tabled, present, short, bytes⟩ := laid.holds inum
  have held : Holds build.disk ((files inum).withSize length) :=
    ⟨⟨fits.type, fits.major, fits.minor, fits.nlink, small, fits.addrs⟩, tabled, present, short, bytes⟩
  exact laid.rewrite bounded rfl held (fun other _ => ⟨laid.holds other, fun _ => rfl⟩) (fun _ => rfl) fun _ _ => rfl

theorem Filed.close {length : Nat} (filed : Filed files (some inum) build) (bounded : inum < INODELIMIT)
    (small : length < 4294967296) : Filed (update files inum ((files inum).withSize length)) none
      (build.putInode inum ((files inum).withSize length).inode) := by
  have laid : Laid (update files inum ((files inum).withSize length)) build :=
    filed.laid.setSize bounded small
  refine ⟨laid.putInode bounded _, filed.written, ?_⟩
  intro other otherBounded _
  have fits := (laid.holds inum).fits
  rw [update_self] at fits
  refine (dinodeOf_update_put fits other).trans ?_
  by_cases same : other = inum
  · rw [if_pos same, same, update_self]
  · rw [if_neg same, update_of_ne same]
    exact filed.inodes other otherBounded fun equal => same (Option.some.inj equal).symm

theorem iappend_wp {p : Nat → Byte} {bytes : List Byte} (built : Built contents build)
    (allocated : 1 ≤ inum ∧ inum < build.freeinode)
    (source : ∀ k < bytes.length, p k = bytes.getD k 0) (room : Fits → Room final)
    (within : Within (update contents inum (contents inum ++ bytes)) final) : MkWp (iappend inum p bytes.length) build
      (fun _ next => Built (update contents inum (contents inum ++ bytes)) next ∧ next.freeinode = build.freeinode)
      (fun _ _ => ¬ Fits) := by
  obtain ⟨files, filed, settled⟩ := built.files
  have bounded : inum < INODELIMIT := Nat.lt_of_lt_of_le allocated.2 built.bounded
  have inside : i2b inum < build.sectors := by
    rw [built.sectors]
    exact i2b_lt_size bounded
  have inode := filed.inodes inum bounded (by simp)
  have content := (settled inum).same
  have length : (files inum).inode.size = (files inum).content.length := by
    rw [(settled inum).size, content]
  have opened : Filed files (some inum) build :=
    ⟨filed.laid, filed.written, fun other otherBounded _ => filed.inodes other otherBounded (by simp)⟩
  refine Wp.bind (rinode_wp inside ?_)
  rw [inode, length]
  refine Wp.seq (iappendLoop_wp opened bounded (content ▸ (settled inum).tight)
    (Nat.le_refl _) (by simpa using source) fun fit => ?_) ?_
  · obtain ⟨short, demanded⟩ := within.room (room fit)
    have small := short inum
    rw [update_self] at small
    have changed := demand_update contents inum (contents inum ++ bytes) bounded
    rw [content, built.freeblock]
    rw [List.length_append] at small changed
    exact ⟨small, by omega⟩
  rintro ⟨din, off⟩ next ⟨offEq, file, appended⟩
  subst offEq
  obtain ⟨rfl, kind, grown, tight, closing, outside⟩ := appended
  have self : update files inum file inum = file := update_self _ _ _
  have grownLength : file.content.length = (files inum).content.length + bytes.length := by
    rw [grown, List.length_append]
  have small : (files inum).content.length + bytes.length < 4294967296 := by
    have held := closing.laid.holds inum
    rw [self] at held
    have short := held.short
    have few := held.blocks_le
    simp only [MAXFILE, NDIRECT, NINDIRECT, BSIZE] at *
    omega
  have closed := closing.close bounded small
  rw [self, update_idem] at closed
  have sectors : i2b inum < next.sectors := by
    rw [closing.laid.sectors]
    exact i2b_lt_size bounded
  refine winode_wp sectors ⟨?_, outside.freeinode⟩
  have number (inode : Dinode) : (next.putInode inum inode).freeinode = build.freeinode := outside.freeinode
  have elsewhere {sector : Nat} (inode : Dinode) (below : sector < DATASTART) (different : sector ≠ i2b inum) :
      (next.putInode inum inode).disk sector = build.disk sector :=
    (Build.putInode_disk_of_ne _ _ different).trans (outside.disk sector below)
  constructor
  · refine ⟨_, closed, ?_⟩
    intro other
    rw [number]
    by_cases same : other = inum
    · subst same
      rw [update_self, update_self]
      obtain ⟨sameKind, _, _, _⟩ := settled other
      refine ⟨?_, by rw [← content]; exact grown, ?_, ?_⟩
      · exact ⟨kind.type.trans sameKind.type, kind.major.trans sameKind.major,
          kind.minor.trans sameKind.minor, kind.nlink.trans sameKind.nlink⟩
      · rw [List.length_append, ← content]
        rfl
      · rw [← content, ← grown]
        exact ⟨tight.blocks, tight.tabled⟩
    · rw [update_of_ne same, update_of_ne same]
      exact settled other
  · have second : 2 ≤ i2b inum := Nat.le_add_left _ _
    rw [elsewhere _ (by decide) (by omega)]
    exact built.super
  · rw [number]
    exact built.positive
  · rw [number]
    exact built.bounded
  · intro other past
    rw [number] at past
    have different : other ≠ inum := by omega
    rw [update_of_ne different]
    exact built.fresh other past
  · rw [number]
    exact outside.inums.trans built.inums
  · intro sector below past
    rw [number] at past
    have different : sector ≠ i2b inum := by
      have last : inum ≤ build.freeinode - 1 := Nat.le_sub_one_of_lt allocated.2
      have order : i2b inum ≤ i2b (build.freeinode - 1) :=
        Nat.add_le_add_right (Nat.div_le_div_right last) 2
      omega
    rw [elsewhere _ below different]
    exact built.spare sector below past

/-! ## Allocating inodes -/

private theorem fits_new {type : Nat} (small : type < 65536) : ({ type := type, nlink := 1 } : Dinode).Fits :=
  ⟨small, show 0 < _ by decide, show 0 < _ by decide, show 1 < _ by decide, show 0 < _ by decide,
    fun _ => show 0 < _ by decide⟩

theorem Tight.unplaced {file : LaidFile} {disk : Blocks} (tight : Tight file 0)
    (holds : Holds disk file) (slot : Nat) : file.place disk slot = 0 := by
  have none : file.blocks = 0 := tight.blocks
  have untabled : ¬ file.tabled = true := by
    rw [tight.tabled, none]
    exact Nat.not_lt_zero _
  unfold LaidFile.place
  split
  · by_contra present
    exact untabled (holds.tabled.mp present)
  · by_contra present
    have inside := (holds.present slot).mp present
    omega

theorem ialloc_wp {type : Nat} (built : Built contents build) (below : build.freeinode < INODELIMIT)
    (chosen : type = if build.freeinode = ROOTINO then T_DIR else T_FILE) :
    MkWp (ialloc type) build (fun inum next => inum = build.freeinode ∧ Built contents next ∧
        next.freeinode = build.freeinode + 1) Stops := by
  obtain ⟨files, filed, settled⟩ := built.files
  have empty : contents build.freeinode = [] := built.fresh _ (Nat.le_refl _)
  have positive := built.positive
  have small : type < 65536 := by
    rw [chosen]
    split <;> decide
  have fits := fits_new small
  refine Wp.see (Wp.set (Wp.bind (winode_wp ?_ (Wp.pure ?_))))
  · rw [built.sectors]
    exact i2b_lt_size below
  refine ⟨rfl, ?_, rfl⟩
  have unplaced : ∀ slot, (files build.freeinode).place build.disk slot = 0 := by
    have before := (settled build.freeinode).tight
    rw [empty] at before
    exact before.unplaced (filed.laid.holds _)
  have count : (files build.freeinode).sectors = 0 := by
    rw [(settled build.freeinode).tight.sectors, empty]
    rfl
  have laid : Laid (update files build.freeinode { inode := { type := type, nlink := 1 } }) build := by
    refine filed.laid.rewrite below count.symm (Holds.empty _ _ fits fun _ => ?_)
      (fun other _ => ⟨filed.laid.holds other, fun _ => rfl⟩) (fun slot => ?_) fun _ _ => rfl
    · simp [Dinode.addr]
    · rw [unplaced slot]
      simp [LaidFile.place, blockPointer, Dinode.addr]
  have numbered : Laid (update files build.freeinode { inode := { type := type, nlink := 1 } }) { build with
        freeinode := build.freeinode + 1
        inums := build.inums ++ [build.freeinode] } :=
    laid.congr (fun _ _ => rfl) rfl rfl rfl rfl
  constructor
  · refine ⟨_, ⟨numbered.putInode below _, filed.written, ?_⟩, ?_⟩
    · intro other bounded _
      refine (dinodeOf_update_put fits other).trans ?_
      by_cases same : other = build.freeinode
      · rw [if_pos same, same, update_self]
      · rw [if_neg same, update_of_ne same]
        exact filed.inodes other bounded (by simp)
    · intro other
      by_cases same : other = build.freeinode
      · subst same
        rw [update_self, empty]
        refine ⟨?_, rfl, rfl, rfl, by simp⟩
        change SameKind (kindOf (build.freeinode + 1) build.freeinode) _
        rw [kindOf, if_neg (by omega), ← chosen]
        exact ⟨rfl, rfl, rfl, rfl⟩
      · rw [update_of_ne same]
        have kept : kindOf (build.freeinode + 1) other = kindOf build.freeinode other := by
          unfold kindOf
          have iff : (other = 0 ∨ build.freeinode + 1 ≤ other) ↔ (other = 0 ∨ build.freeinode ≤ other) := by omega
          simp only [iff]
        change Settled (kindOf (build.freeinode + 1) other) _ _
        rw [kept]
        exact settled other
  · exact built.super
  · exact Nat.le_succ_of_le positive
  · exact below
  · intro other past
    exact built.fresh other (Nat.le_of_succ_le past)
  · change build.inums ++ [build.freeinode] = List.range' 1 (build.freeinode + 1 - 1)
    obtain ⟨before, number⟩ := Nat.exists_eq_add_of_le' positive
    rw [built.inums, number, Nat.add_sub_cancel, Nat.add_sub_cancel, List.range'_concat]
    congr 2
    omega
  · intro sector under past
    have order : i2b (build.freeinode - 1) ≤ i2b build.freeinode :=
      Nat.add_le_add_right (Nat.div_le_div_right (Nat.sub_le _ _)) 2
    change i2b build.freeinode < sector at past
    have different : sector ≠ i2b build.freeinode := by omega
    rw [Build.putInode_disk_of_ne _ _ different]
    exact built.spare sector under (by omega)

/-! ## The contents that `main` lays out -/

end Steps

def direntBytes (de : Dirent) : List Byte := (List.range 16).map de.byteAt

def InputFile.content (file : InputFile) : List Byte := (file.reads.getD []).flatMap (·.val)

/-- The directory entries of files with consecutive inode numbers. -/
def entriesFrom : (inum : Nat) → List InputFile → List Byte
  | _, [] => []
  | inum, file :: rest => direntBytes (direntOf inum file.target) ++ entriesFrom (inum + 1) rest

def rootBytes (files : List InputFile) : List Byte :=
  direntBytes (direntOf ROOTINO [46]) ++ direntBytes (direntOf ROOTINO [46, 46]) ++ entriesFrom 2 files

def layoutOf (files : List InputFile) (inum : Nat) : List Byte :=
  if inum = ROOTINO then rootBytes files
  else if 2 ≤ inum then ((files[inum - 2]?).map InputFile.content).getD [] else []

@[simp] theorem length_direntBytes (de : Dirent) : (direntBytes de).length = 16 := by
  simp [direntBytes]

theorem length_entriesFrom (inum : Nat) (files : List InputFile) :
    (entriesFrom inum files).length = 16 * files.length := by
  induction files generalizing inum with
  | nil => rfl
  | cons file rest ih =>
    simp only [entriesFrom, List.length_append, length_direntBytes, ih, List.length_cons]
    omega

theorem length_rootBytes (files : List InputFile) : (rootBytes files).length = 16 * (files.length + 2) := by
  simp only [rootBytes, List.length_append, length_direntBytes, length_entriesFrom]
  omega

theorem entriesFrom_append (inum : Nat) (first second : List InputFile) : entriesFrom inum (first ++ second) =
      entriesFrom inum first ++ entriesFrom (inum + first.length) second := by
  induction first generalizing inum with
  | nil => rfl
  | cons file rest ih =>
    simp only [List.cons_append, entriesFrom, ih, List.append_assoc, List.length_cons]
    rw [show inum + 1 + rest.length = inum + (rest.length + 1) by omega]

theorem layoutOf_root (files : List InputFile) : layoutOf files ROOTINO = rootBytes files :=
  if_pos rfl

theorem layoutOf_file (files : List InputFile) (index : Nat) :
    layoutOf files (index + 2) = ((files[index]?).map InputFile.content).getD [] := by
  have notRoot : index + 2 ≠ ROOTINO := Nat.succ_succ_ne_one index
  rw [layoutOf, if_neg notRoot, if_pos (Nat.le_add_left _ _), Nat.add_sub_cancel]

/-- The contents with one more entry in the root directory. -/
def entered (contents : Nat → List Byte) (de : Dirent) : Nat → List Byte :=
  update contents ROOTINO (contents ROOTINO ++ direntBytes de)

theorem layoutOf_concat (done : List InputFile) (file : InputFile) :
    update (entered (layoutOf done) (direntOf (done.length + 2) file.target)) (done.length + 2) file.content =
      layoutOf (done ++ [file]) := by
  funext inum
  unfold entered
  rcases Nat.lt_trichotomy inum 1 with zero | one | more
  · have none : inum = 0 := by omega
    subst none
    rfl
  · subst one
    rw [update_of_ne (by omega), update_self, layoutOf_root, layoutOf_root, rootBytes, rootBytes, entriesFrom_append]
    simp [entriesFrom, Nat.add_comm]
  · obtain ⟨index, rfl⟩ := Nat.exists_eq_add_of_le' (show 2 ≤ inum from more)
    rw [layoutOf_file]
    by_cases last : index = done.length
    · subst last
      simp
    · rw [update_of_ne (by omega), update_of_ne (Nat.succ_succ_ne_one index), layoutOf_file, List.getElem?_append]
      split
      · rfl
      · rw [List.getElem?_eq_none (by omega), List.getElem?_eq_none (by simp; omega)]

/-! ## The steps of `main` -/

section Main

variable {contents final : Nat → List Byte} {build : Build} {inum : Nat} {Fits : Prop}

theorem appendEntry_root_wp {de : Dirent} (built : Built contents build)
    (allocated : ROOTINO < build.freeinode) (room : Fits → Room final) (within : Within (entered contents de) final) :
    MkWp (iappend ROOTINO de.byteAt 16) build
      (fun _ next => Built (entered contents de) next ∧ next.freeinode = build.freeinode) (fun _ _ => ¬ Fits) := by
  have source : ∀ k < (direntBytes de).length, de.byteAt k = (direntBytes de).getD k 0 := by
    intro k small
    rw [length_direntBytes] at small
    simp [direntBytes, List.getD_eq_getElem?_getD, small]
  have general := iappend_wp built ⟨Nat.le_refl _, allocated⟩ source room within
  rwa [length_direntBytes] at general

theorem appendPieces_wp (pieces : List Piece) (built : Built contents build)
    (allocated : 1 ≤ inum ∧ inum < build.freeinode) (room : Fits → Room final)
    (within : Within (update contents inum (contents inum ++ pieces.flatMap (·.val))) final) :
    MkWp (appendPieces inum pieces) build (fun _ next => Built (update contents inum
          (contents inum ++ pieces.flatMap (·.val))) next ∧ next.freeinode = build.freeinode) (fun _ _ => ¬ Fits) := by
  induction pieces generalizing contents build with
  | nil =>
    refine Wp.pure ⟨?_, rfl⟩
    rwa [List.flatMap_nil, List.append_nil, update_eq_self]
  | cons piece rest ih =>
    have first : Within (update contents inum (contents inum ++ piece.val)) final := by
      intro other
      refine Nat.le_trans ?_ (within other)
      by_cases same : other = inum
      · rw [same, update_self, update_self, List.flatMap_cons]
        simp only [List.length_append]
        omega
      · rw [update_of_ne same, update_of_ne same]
    refine Wp.seq (iappend_wp built allocated (fun _ _ => rfl) room first) ?_
    rintro _ next ⟨grown, number⟩
    have later := ih grown (number.symm ▸ allocated)
    rw [update_self, update_idem, List.append_assoc] at later
    exact (later within).post fun _ last both => ⟨both.1, both.2.trans number⟩

theorem within_append (done rest : List InputFile) : Within (layoutOf done) (layoutOf (done ++ rest)) := by
  intro inum
  unfold layoutOf
  split
  · simp only [length_rootBytes, List.length_append]
    omega
  · split
    · rw [List.getElem?_append]
      split
      · exact Nat.le_refl _
      · rw [List.getElem?_eq_none (by omega)]
        exact Nat.zero_le _
    · exact Nat.le_refl _

/-- The files can be opened and read, their names are plain and everything fits. -/
structure Acceptable (files : List InputFile) : Prop where
  plain : ∀ file ∈ files, slash ∉ file.name
  opened : ∀ file ∈ files, file.reads ≠ none
  room : Room (layoutOf files)

theorem addFile_wp {done : List InputFile} {file : InputFile} (built : Built (layoutOf done) build)
    (number : build.freeinode = done.length + 2) (below : build.freeinode < INODELIMIT)
    (plain : Fits → slash ∉ file.name) (opened : Fits → file.reads ≠ none)
    (room : Fits → Room final) (within : Within (layoutOf (done ++ [file])) final) :
    MkWp (addFile ROOTINO file) build (fun _ next => Built (layoutOf (done ++ [file])) next ∧
        next.freeinode = (done ++ [file]).length + 2)
      (fun _ _ => ¬ Fits) := by
  have rooted : ROOTINO < build.freeinode := by
    rw [number]
    exact Nat.lt_of_lt_of_le (by decide) (Nat.le_add_left 2 _)
  have notRoot : build.freeinode ≠ ROOTINO := Nat.ne_of_gt rooted
  refine Wp.ite (fun member => Wp.throw fun fits => plain fits member) (fun _ => ?_)
  cases reading : file.reads with
  | none => exact Wp.throw fun fits => opened fits reading
  | some pieces =>
    have content : file.content = pieces.flatMap (·.val) := by
      rw [InputFile.content, reading, Option.getD_some]
    have concat := layoutOf_concat done file
    refine Wp.seq (ialloc_wp built below (if_neg notRoot).symm) ?_
    rintro _ next ⟨rfl, allocated, nextNumber⟩
    rw [← number] at concat
    have fresh : entered (layoutOf done) (direntOf build.freeinode file.target) build.freeinode = [] := by
      rw [entered, update_of_ne notRoot]
      exact built.fresh _ (Nat.le_refl _)
    have beforeLast : Within (entered (layoutOf done) (direntOf build.freeinode file.target)) final := by
      intro other
      refine Nat.le_trans ?_ (within other)
      rw [← concat]
      by_cases last : other = build.freeinode
      · rw [last, fresh]
        exact Nat.zero_le _
      · rw [update_of_ne last]
    refine Wp.seq (appendEntry_root_wp allocated (by omega) room beforeLast) ?_
    rintro _ middle ⟨inRoot, middleNumber⟩
    rw [content] at concat
    have finished := appendPieces_wp pieces inRoot (show 1 ≤ build.freeinode ∧ _ by omega) room
    rw [fresh, List.nil_append, concat] at finished
    refine (finished within).post ?_
    rintro _ last ⟨complete, lastNumber⟩
    refine ⟨complete, ?_⟩
    rw [lastNumber, middleNumber, nextNumber, number, List.length_append, List.length_singleton]

theorem addFiles_wp {done : List InputFile} (rest : List InputFile)
    (built : Built (layoutOf done) build) (number : build.freeinode = done.length + 2)
    (below : done.length + rest.length + 2 ≤ INODELIMIT)
    (plain : Fits → ∀ file ∈ rest, slash ∉ file.name)
    (opened : Fits → ∀ file ∈ rest, file.reads ≠ none)
    (room : Fits → Room (layoutOf (done ++ rest))) :
    MkWp (addFiles ROOTINO rest) build (fun _ next => Built (layoutOf (done ++ rest)) next ∧
        next.freeinode = (done ++ rest).length + 2)
      (fun _ _ => ¬ Fits) := by
  induction rest generalizing done build with
  | nil =>
    rw [List.append_nil]
    exact Wp.pure ⟨built, number⟩
  | cons file rest ih =>
    rw [List.length_cons] at below
    have split : done ++ file :: rest = (done ++ [file]) ++ rest := by simp
    rw [split] at room ⊢
    refine Wp.seq (addFile_wp built number (by omega) (fun fits => plain fits file List.mem_cons_self)
      (fun fits => opened fits file List.mem_cons_self) room (within_append _ _)) ?_
    rintro _ next ⟨grown, nextNumber⟩
    refine ih grown nextNumber ?_ (fun fits other member =>
      plain fits other (List.mem_cons_of_mem _ member)) (fun fits other member =>
      opened fits other (List.mem_cons_of_mem _ member)) room
    rw [List.length_append, List.length_singleton]
    omega

/-! ## The whole program -/

private theorem dinodeAt_zero (index : Nat) : dinodeAt Bytes.zero index = {} := by
  simp [dinodeAt]

/-- The image after `format`. -/
def formatted : Build where
  disk := update (fun _ => Bytes.zero) 1 (superBlock layout)
  sectors := size
  freeblock := DATASTART
  usedblocks := DATASTART

private theorem built_formatted : Built (fun _ => []) formatted := by
  have zero : ∀ sector, sector ≠ 1 → formatted.disk sector = Bytes.zero := by
    intro sector different
    change update (fun _ => Bytes.zero) 1 (superBlock layout) sector = Bytes.zero
    rw [update_of_ne different]
  have unfits : ({} : Dinode).Fits :=
    ⟨by decide, by decide, by decide, by decide, by decide, fun _ => show 0 < _ by decide⟩
  have unplaced : ∀ slot, ({} : LaidFile).place formatted.disk slot = 0 := fun slot => by
    simp [LaidFile.place, blockPointer, Dinode.addr]
  have laid : Laid (fun _ => {}) formatted := by
    constructor
    · rfl
    · rfl
    · simp [formatted, LaidFile.sectors]
    · exact fun _ => Holds.empty _ _ unfits fun _ => by simp [Dinode.addr]
    · refine ⟨by decide, Nat.le_refl _, ?_, ?_, ?_⟩
      · exact fun place present => absurd (unplaced place.2) present
      · exact fun place _ present => absurd (unplaced place.2) present
      · exact fun given lower upper => absurd lower (Nat.not_le.mpr upper)
    · intro sector past
      refine zero sector ?_
      rintro rfl
      exact absurd past (by decide)
    · simp [formatted]
  have filed : Filed (fun _ => {}) none formatted := by
    refine ⟨laid, fun sector lower upper => absurd lower (Nat.not_le.mpr upper), ?_⟩
    intro inum _ _
    rw [dinodeOf, zero _ (Nat.succ_succ_ne_one _), dinodeAt_zero]
  refine ⟨⟨_, filed, fun inum => ?_⟩, ?_, ?_, ?_, ?_, ?_, ?_⟩
  · refine ⟨?_, rfl, rfl, rfl, by simp⟩
    have none : kindOf formatted.freeinode inum = {} := by
      rw [kindOf, if_pos]
      rcases Nat.eq_zero_or_pos inum with first | later
      · exact .inl first
      · exact .inr later
    rw [none]
    exact ⟨rfl, rfl, rfl, rfl⟩
  · change update (fun _ => Bytes.zero) 1 (superBlock layout) 1 = superBlock layout
    rw [update_self]
  · exact Nat.le_refl _
  · decide
  · exact fun _ _ => rfl
  · rfl
  · intro sector _ past
    refine zero sector ?_
    rintro rfl
    exact absurd past (by decide)

private theorem zeroSectors_wp (count used : Nat) {Stops : Failure → Build → Prop} :
    MkWp (zeroSectors count 0) { freeblock := used, usedblocks := used }
      (fun _ next => next = { sectors := count, freeblock := used, usedblocks := used }) Stops := by
  refine Wp.post (Wp.forUp (fun index current => current =
    { sectors := index, freeblock := used, usedblocks := used }) ?_ rfl) ?_
  · rintro index _ _ _ rfl
    refine Wp.change ?_
    have blank : update (fun _ => Bytes.zero : Blocks) index Bytes.zero = fun _ => Bytes.zero := update_eq_self _ _
    simp only [blank, Nat.max_eq_right (Nat.le_succ index)]
  · rintro _ _ rfl
    rw [Nat.zero_add]

theorem format_wp {Post : Unit → Build → Prop} {Stops : Failure → Build → Prop}
    (next : Post () formatted) : MkWp format {} Post Stops := by
  refine Wp.set (Wp.seq (zeroSectors_wp size DATASTART) ?_)
  rintro _ _ rfl
  exact Wp.change next

/-- The image after the size of the root directory and the bitmap are written. -/
def Build.finished (build : Build) : Build :=
  let root := dinodeOf build.disk ROOTINO
  let fixed := build.putInode ROOTINO { root with size := (root.size / BSIZE + 1) * BSIZE }
  { fixed with
    disk := update fixed.disk BITMAP (bitmapBlock (List.range build.usedblocks))
    sectors := max fixed.sectors (BITMAP + 1) }

private theorem within_root {bytes : List Byte} {files : List InputFile} (short : bytes.length ≤ 32) :
    Within (update (fun _ => []) ROOTINO bytes) (layoutOf files) := by
  intro inum
  by_cases root : inum = ROOTINO
  · rw [root, update_self, layoutOf_root, length_rootBytes]
    omega
  · rw [update_of_ne root]
    exact Nat.zero_le _

private theorem finish_wp {Stops : Failure → Build → Prop} (built : Built contents build) : MkWp (do
        fixRoot ROOTINO
        let build ← visible
        balloc build.usedblocks) build (fun _ next => next = build.finished) Stops := by
  have inside : i2b ROOTINO < build.sectors := by
    rw [built.sectors]
    decide
  obtain ⟨files, filed, _⟩ := built.files
  have limit := filed.laid.limit filed.written
  have few : build.usedblocks < 512 * 8 := by
    rw [filed.laid.used]
    simp only [size] at limit
    omega
  refine Wp.bind (Wp.bind (rinode_wp inside (winode_wp inside (Wp.see ?_))))
  exact Wp.ite (fun _ => Wp.change rfl) fun wrong => absurd few wrong

theorem main_wp {files : List InputFile} (few : files.length + 2 ≤ INODELIMIT) : MkWp (main files) {}
      (fun _ next => ∃ build, Built (layoutOf files) build ∧ build.freeinode = files.length + 2 ∧ next = build.finished)
      (fun _ _ => ¬ Acceptable files) := by
  have room : Acceptable files → Room (layoutOf files) := fun fits => fits.room
  have dots : update (fun _ => []) ROOTINO (direntBytes (direntOf ROOTINO [46]) ++
      direntBytes (direntOf ROOTINO [46, 46])) = layoutOf [] := by
    funext inum
    by_cases root : inum = ROOTINO
    · rw [root, update_self, layoutOf_root, rootBytes, entriesFrom, List.append_nil]
    · simp [layoutOf, root]
  refine Wp.bind (format_wp (Wp.seq (ialloc_wp built_formatted (by decide) rfl) ?_))
  rintro root first ⟨isRoot, rooted, number⟩
  replace isRoot : root = ROOTINO := isRoot
  rw [isRoot]
  have allocated : ROOTINO < first.freeinode := by
    rw [number]
    exact Nat.lt_succ_self _
  refine Wp.seq (appendEntry_root_wp rooted allocated room (within_root (by simp))) ?_
  rintro _ second ⟨dotted, secondNumber⟩
  refine Wp.seq (appendEntry_root_wp dotted (secondNumber ▸ allocated) room ?_) ?_
  · rw [entered, entered, update_idem]
    exact within_root (by simp)
  rintro _ third ⟨parented, thirdNumber⟩
  rw [entered, entered, update_self, update_idem, List.nil_append, dots] at parented
  have count : third.freeinode = ([] : List InputFile).length + 2 := by
    rw [thirdNumber, secondNumber, number]
    rfl
  refine Wp.seq (addFiles_wp files parented count (by simpa using few) Acceptable.plain Acceptable.opened room) ?_
  rintro _ last ⟨built, lastNumber⟩
  exact (finish_wp built).post fun _ next same => ⟨last, built, lastNumber, same⟩

end Main

end Xv6Dedup.Mkfs
