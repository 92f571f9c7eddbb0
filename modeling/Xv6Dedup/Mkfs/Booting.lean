import Xv6Dedup.Kernel.Directory
import Xv6Dedup.Mkfs.Outcome

/-!
# Starting the kernel on an image

What the kernel reads from an image that `mkfs` wrote: every file under its
name, and a bitmap that marks the sectors in use.
-/

set_option autoImplicit false

namespace Xv6Dedup.Mkfs

open Program

/-! ## Entries of the root directory -/

theorem Dirent.ofBytes_direntBytes (inum : Nat) (name : List Byte) :
    Dirent.ofBytes (direntBytes (direntOf inum name)) = direntOf inum name := by
  have bytes : ∀ index, (direntBytes (direntOf inum name)).getD index 0 =
      if index < 16 then (direntOf inum name).byteAt index else 0 := by
    intro index
    rw [direntBytes, List.getD_eq_getElem?_getD, List.getElem?_map]
    split
    · next inside => rw [List.getElem?_range inside, Option.map_some, Option.getD_some]
    · next outside =>
        rw [List.getElem?_eq_none (by simpa using outside), Option.map_none, Option.getD_none]
  unfold Dirent.ofBytes
  simp only [bytes]
  congr 1
  · simp [Dirent.byteAt, Bytes.leByte, direntOf]
    omega
  · funext index
    by_cases inside : index + 2 < 16
    · rw [if_pos inside]
      rfl
    · rw [if_neg inside, cstring, List.getD_eq_getElem?_getD,
        List.getElem?_eq_none (by simp only [List.length_take, DIRSIZ]; omega)]
      rfl

private theorem take_direntBytes (de : Dirent) (rest : List Byte) :
    (direntBytes de ++ rest).take 16 = direntBytes de := by
  rw [List.take_append_of_le_length (by simp), List.take_of_length_le (by simp)]

private theorem drop_direntBytes (de : Dirent) (rest : List Byte) (position : Nat) :
    (direntBytes de ++ rest).drop (16 * (position + 1)) = rest.drop (16 * position) := by
  rw [show 16 * (position + 1) = (direntBytes de).length + 16 * position by simp; omega, List.drop_append]
  simp

variable {files : List InputFile}

theorem entriesFrom_chunk {file : InputFile} {position : Nat} (inum : Nat) (found : files[position]? = some file) :
    ((entriesFrom inum files).drop (16 * position)).take 16 = direntBytes (direntOf (inum + position) file.target) := by
  induction files generalizing inum position with
  | nil => cases found
  | cons first rest ih =>
    cases position with
    | zero =>
      cases found
      exact take_direntBytes _ _
    | succ position =>
      rw [entriesFrom, drop_direntBytes, ih (inum + 1) found]
      congr 2
      omega

/-- The inode number and the name of an entry of the root directory. -/
def rootEntry (files : List InputFile) : (position : Nat) → Option (Nat × List Byte)
  | 0 => some (ROOTINO, [46])
  | 1 => some (ROOTINO, [46, 46])
  | position + 2 => files[position]?.map fun file => (position + 2, file.target)

variable {inum : Nat} {name : List Byte}

theorem rootBytes_chunk {position : Nat} (found : rootEntry files position = some (inum, name)) :
    ((rootBytes files).drop (16 * position)).take 16 = direntBytes (direntOf inum name) := by
  rw [rootBytes, List.append_assoc]
  rcases position with _ | _ | position
  · cases found
    exact take_direntBytes _ _
  · cases found
    exact take_direntBytes _ _
  · obtain ⟨file, there, same⟩ := Option.map_eq_some_iff.mp found
    cases same
    rw [drop_direntBytes, drop_direntBytes, entriesFrom_chunk 2 there, Nat.add_comm]

theorem rootEntry_lt {position : Nat} (found : rootEntry files position = some (inum, name)) :
    position < files.length + 2 := by
  match position with
  | 0 => omega
  | 1 => omega
  | position + 2 =>
    obtain ⟨file, there, _⟩ := Option.map_eq_some_iff.mp found
    have inside := (List.getElem?_eq_some_iff.mp there).1
    omega

theorem Holds.fileBytes_eq {disk : Blocks} {file : LaidFile} (holds : Holds disk file) {off count : Nat}
    (inside : off + count ≤ file.content.length) : Mapped disk file.inode off count ∧
      fileBytes disk file.inode off count = (file.content.drop off).take count := by
  have short := holds.short
  constructor
  · intro k small
    exact (holds.present _).mpr (holds.block_at (by omega)).1
  · apply List.ext_getElem?
    intro k
    by_cases small : k < count
    · rw [fileBytes, List.getElem?_map, List.getElem?_range small, List.getElem?_take,
        if_pos small, List.getElem?_drop, Option.map_some, fileByte, holds.bytes (off + k) (by omega),
        List.getD_eq_getElem?_getD, List.getElem?_eq_getElem (by omega), Option.getD_some]
    · rw [List.getElem?_eq_none (by simp [fileBytes]; omega), List.getElem?_eq_none (by simp; omega)]

/-! ## Reading a file by its name -/

/-- Look up a name in the root directory and read from the inode found. -/
def readNamed (name : List Byte) (off n : Nat) : FsM (Option (Int × List Byte)) := do
  let dp ← iget ROOTINO
  ilock dp
  let found ← dirlookup dp name
  match found with
  | none => pure none
  | some (ip, _) => do
    ilock ip
    let result ← readi ip off n
    pure (some result)

/-- The files can be read, have different names that are not those of the two
first entries, and fit the image. -/
structure Fitting (files : List InputFile) : Prop where
  plain : ∀ file ∈ files, slash ∉ file.name
  opened : ∀ file ∈ files, file.reads ≠ none
  distinct : files.Pairwise fun first second =>
    first.target.take DIRSIZ ≠ second.target.take DIRSIZ
  notDots : ∀ file ∈ files, file.target.take DIRSIZ ≠ [46] ∧ file.target.take DIRSIZ ≠ [46, 46]
  short : ∀ file ∈ files, file.content.length ≤ MAXFILE * 512
  inodes : files.length + 1 < ninodes
  sectors : DATASTART + dataSectors files ≤ size - nlog

theorem Fitting.few (fitting : Fitting files) : files.length + 2 ≤ INODELIMIT := by
  have few := fitting.inodes
  have limit : INODELIMIT = 232 := rfl
  simp only [ninodes] at few
  omega

theorem Fitting.acceptable (fitting : Fitting files) : Acceptable files := by
  have few := fitting.inodes
  refine ⟨fitting.plain, fitting.opened, ?_, ?_⟩
  · intro inum
    unfold layoutOf
    split
    · rw [length_rootBytes]
      simp only [ninodes, MAXFILE, NDIRECT, NINDIRECT, BSIZE] at *
      omega
    · split
      · cases found : files[inum - 2]? with
        | none => exact Nat.zero_le _
        | some file => exact fitting.short file (List.mem_of_getElem? found)
      · exact Nat.zero_le _
  · rw [demand_layoutOf fitting.few]
    exact Nat.le_trans fitting.sectors (Nat.sub_le _ _)

section Image

variable {files : List InputFile} {laidFiles : Nat → LaidFile} {image : Build}

theorem Imaged.inode_eq (imaged : Imaged files laidFiles image) (bounded : inum < ninodes) :
    dinodeOf image.disk inum = (laidFiles inum).inode := by
  have limit : INODELIMIT = 232 := rfl
  refine imaged.inodes inum ?_ ?_
  · simp only [ninodes] at bounded
    omega
  · simp only [IBLOCK, BITMAP, ninodes, IPB, BSIZE] at *
    omega

theorem Imaged.entry_eq (imaged : Imaged files laidFiles image) {position : Nat}
    (found : rootEntry files position = some (inum, name)) :
    Mapped image.disk (laidFiles ROOTINO).inode (16 * position) 16 ∧
      direntAt image.disk (laidFiles ROOTINO).inode position = direntOf inum name := by
  have content : (laidFiles ROOTINO).content = rootBytes files := by
    rw [imaged.content, layoutOf_root]
  have within : 16 * position + 16 ≤ (laidFiles ROOTINO).content.length := by
    have inside := rootEntry_lt found
    rw [content, length_rootBytes]
    omega
  obtain ⟨mapped, bytes⟩ := (imaged.laid.holds ROOTINO).fileBytes_eq within
  refine ⟨mapped, ?_⟩
  rw [direntAt, bytes, content, rootBytes_chunk found, Dirent.ofBytes_direntBytes]

theorem direntOf_matches {wanted : List Byte} (nameFree : 0 ∉ name) (wantedFree : 0 ∉ wanted) :
    (direntOf inum name).Matches wanted ↔ inum % 2 ^ 16 ≠ 0 ∧ wanted.take DIRSIZ = name.take DIRSIZ := by
  unfold Dirent.Matches
  rw [direntOf, namecmp_cstring_eq_zero_iff wantedFree
    fun member => nameFree (List.mem_of_mem_take member), List.take_take, Nat.min_self]

theorem InputFile.target_noNul (file : InputFile) : 0 ∉ file.target := by
  intro member
  unfold InputFile.target at member
  split at member
  · exact file.noNul (List.mem_of_mem_tail member)
  · exact file.noNul member

theorem rootEntry_before (fitting : Fitting files) {position earlier : Nat} {file : InputFile}
    (found : files[position]? = some file) (before : earlier < position + 2) :
    ∃ inum name, rootEntry files earlier = some (inum, name) ∧ 0 ∉ name ∧
      file.target.take DIRSIZ ≠ name.take DIRSIZ := by
  have member : file ∈ files := List.mem_of_getElem? found
  match earlier with
  | 0 => exact ⟨_, _, rfl, by decide, (fitting.notDots file member).1⟩
  | 1 => exact ⟨_, _, rfl, by decide, (fitting.notDots file member).2⟩
  | earlier + 2 =>
    obtain ⟨inside, here⟩ := List.getElem?_eq_some_iff.mp found
    have earlierInside : earlier < files.length := by omega
    have apart := List.pairwise_iff_getElem.mp fitting.distinct earlier position earlierInside inside (by omega)
    rw [here] at apart
    exact ⟨_, _, by rw [rootEntry, List.getElem?_eq_getElem earlierInside, Option.map_some],
      InputFile.target_noNul _, Ne.symm apart⟩

end Image

section Kernel

variable {files : List InputFile} {laidFiles : Nat → LaidFile} {image : Build} {position : Nat} {file : InputFile}

theorem Imaged.lookup_wp (imaged : Imaged files laidFiles image) (fitting : Fitting files)
    (found : files[position]? = some file) {free : Freedom} {state : State} {dp : Slot}
    {Post : Option (Slot × Nat) → State → Prop} {Stops : Stop → State → Prop}
    (calm : Calm ∅ ∅ state) (same : state.data = image.disk)
    (current : (state.icache dp).toDinode = (laidFiles ROOTINO).inode) (next : FsWp free (iget (position + 2)) state
      (fun ip after => Post (some (ip, 16 * (position + 2))) after) Stops) :
    FsWp free (dirlookup dp file.target) state Post Stops := by
  have few := fitting.inodes
  simp only [ninodes] at few
  have entry : rootEntry files (position + 2) = some (position + 2, file.target) := by
    rw [rootEntry, found, Option.map_some]
  have inside := rootEntry_lt entry
  obtain ⟨_, here⟩ := imaged.entry_eq entry
  have number : (direntOf (position + 2) file.target).inum = position + 2 :=
    Nat.mod_eq_of_lt (by omega)
  have size : (laidFiles ROOTINO).inode.size = roundedSize (16 * (files.length + 2)) := by
    rw [imaged.size, if_pos rfl, length_rootBytes]
  refine dirlookup_wp (position + 2) calm current (imaged.laid.holds ROOTINO).fits
    (imaged.kind ROOTINO).type ?_ ?_ ?_ ?_ ?_
  · rw [size, roundedSize]
    simp only [BSIZE]
    omega
  · intro earlier upTo
    rw [same]
    rcases Nat.lt_or_eq_of_le upTo with before | last
    · obtain ⟨inum, name, there, _⟩ := rootEntry_before fitting found before
      exact (imaged.entry_eq there).1
    · rw [last]
      exact (imaged.entry_eq entry).1
  · intro earlier before
    obtain ⟨inum, name, there, free, apart⟩ := rootEntry_before fitting found before
    rw [same, (imaged.entry_eq there).2, direntOf_matches free file.target_noNul]
    exact fun both => apart both.2
  · rw [same, here, direntOf_matches file.target_noNul file.target_noNul]
    exact ⟨by omega, rfl⟩
  · rw [same, here, number]
    exact next

theorem Imaged.fileInode (imaged : Imaged files laidFiles image) (found : files[position]? = some file) :
    (laidFiles (position + 2)).inode.type = T_FILE ∧ (laidFiles (position + 2)).inode.size = file.content.length ∧
      (laidFiles (position + 2)).content = file.content := by
  have inside := (List.getElem?_eq_some_iff.mp found).1
  have content : layoutOf files (position + 2) = file.content := by
    rw [layoutOf_file, found, Option.map_some, Option.getD_some]
  have notRoot : position + 2 ≠ ROOTINO := Nat.succ_succ_ne_one position
  refine ⟨?_, ?_, ?_⟩
  · rw [(imaged.kind (position + 2)).type, kindOf, if_neg (by omega), if_neg notRoot]
  · rw [imaged.size, if_neg notRoot, content]
  · rw [imaged.content, content]

/-- The bytes from `off` on, at most `n` of them. -/
def InputFile.slice (file : InputFile) (off n : Nat) : List Byte := (file.content.drop off).take n

theorem Imaged.read_eq (imaged : Imaged files laidFiles image)
    (found : files[position]? = some file) (drivers : Drivers) {off n : Nat}
    (inside : off ≤ file.content.length) (bounded : off + n < 2 ^ 32) :
    readResult drivers image.disk (laidFiles (position + 2)).inode off n =
      some (((file.slice off n).length : Int), file.slice off n) := by
  obtain ⟨type, size, content⟩ := imaged.fileInode found
  have count : (if file.content.length < off + n then file.content.length - off else n) =
      min n (file.content.length - off) := by
    split <;> omega
  have slice : file.slice off n = (file.content.drop off).take (min n (file.content.length - off)) := by
    rw [InputFile.slice, ← List.length_drop, ← List.take_take, List.take_length]
  have length : (file.slice off n).length = min n (file.content.length - off) := by
    rw [InputFile.slice, List.length_take, List.length_drop]
  obtain ⟨mapped, bytes⟩ := (imaged.laid.holds (position + 2)).fileBytes_eq
    (show off + min n (file.content.length - off) ≤ (laidFiles (position + 2)).content.length by
      rw [content]
      omega)
  unfold readResult
  rw [type, if_neg (by decide), size, Nat.mod_eq_of_lt bounded, if_neg (by omega), count]
  rw [if_pos mapped, bytes, content, length, slice]

theorem Imaged.readNamed_eq (imaged : Imaged files laidFiles image) (fitting : Fitting files)
    (found : files[position]? = some file) (drivers : Drivers) {memo : Memo}
    (allowed : MemoOk .full memo) {off n : Nat} (inside : off ≤ file.content.length) (bounded : off + n < 2 ^ 32) :
    returned (readNamed file.target off n (mounted drivers image.disk, memo)) =
      some (some (((file.slice off n).length : Int), file.slice off n)) := by
  have calm := mounted_calm drivers image.disk
  have few := fitting.inodes
  have position_lt := (List.getElem?_eq_some_iff.mp found).1
  have read := imaged.read_eq found drivers inside bounded
  have rootInode := imaged.inode_eq (show ROOTINO < ninodes by decide)
  have fileInode := imaged.inode_eq (show position + 2 < ninodes by omega)
  have rootTyped : (dinodeOf image.disk ROOTINO).type ≠ 0 := by
    rw [rootInode, (imaged.kind ROOTINO).type, kindOf, if_neg (by simp only [ROOTINO]; omega)]
    decide
  have fileTyped : (dinodeOf image.disk (position + 2)).type ≠ 0 := by
    rw [fileInode, (imaged.fileInode found).1]
    decide
  suffices correct : FsWp .full (readNamed file.target off n) (mounted drivers image.disk)
      (fun result _ => some (some (((file.slice off n).length : Int), file.slice off n)) = some result)
      (fun _ _ => some (some (((file.slice off n).length : Int), file.slice off n)) = none) from
    correct.returned_eq allowed
  have cachedCalm : ∀ icache, Calm ∅ ∅ ((mounted drivers image.disk).withCache icache) :=
    fun _ => { calm with }
  refine Wp.bind (iget_wp (mounted_cached drivers image.disk) (by simp) (by simp) ?_ ?_)
  · intro full
    exact absurd rfl (full ⟨0, by decide⟩)
  intro dp icache cached _ number _ _
  refine Wp.bind (ilock_wp cached (by simp) (by simp) number (calm.steady .full)
    (calm.idle (Finset.notMem_empty _)) rfl rootTyped ?_)
  intro icache locked current rootNumber _
  refine Wp.bind (imaged.lookup_wp fitting found (cachedCalm icache) rfl (current.trans rootInode) ?_)
  refine iget_wp locked (by simp) ?_ ?_ ?_
  · intro other member
    rw [List.mem_singleton.mp member]
    exact rootNumber.trans_ne (Nat.succ_succ_ne_one position).symm
  · intro full
    obtain ⟨other, different⟩ := exists_ne dp
    refine absurd ?_ (full other)
    change (icache other).ref = 0
    rw [locked.refs]
    simp [Ne.symm different, mounted, rebooted]
  intro ip icache both unlocked fileNumber _ _
  refine Wp.bind (ilock_wp both (by simp) unlocked fileNumber ((cachedCalm _).steady .full)
    ((cachedCalm icache).idle (Finset.notMem_empty _)) rfl fileTyped ?_)
  intro icache _ current _ _
  refine Wp.bind ((readi_wp (cachedCalm icache) (current.trans fileInode)).mono ?_ ?_)
  · rintro result _ ⟨returned, _⟩
    exact Wp.pure (congrArg some (read.symm.trans returned))
  · intro _ _ none
    exact absurd (read.symm.trans none) (by simp)

end Kernel

/-! ## Sectors in use -/

/-- The sector of a data block of an inode, or of its table at position
`MAXFILE`. -/
def designated (blocks : Blocks) (inum slot : Nat) : Nat :=
  if slot = MAXFILE then (dinodeOf blocks inum).addr NDIRECT
  else blockPointer blocks (dinodeOf blocks inum) slot

section Sectors

variable {files : List InputFile} {laidFiles : Nat → LaidFile} {image : Build}

variable (imaged : Imaged files laidFiles image)
include imaged

theorem Imaged.designated_eq (bounded : inum < ninodes) (slot : Nat) :
    designated image.disk inum slot = (laidFiles inum).place image.disk slot := by
  rw [designated, imaged.inode_eq bounded, LaidFile.place]

theorem Imaged.designated_apart {other slot place : Nat} (bounded : inum < ninodes)
    (otherBounded : other < ninodes) (present : designated image.disk inum slot ≠ 0)
    (same : designated image.disk inum slot = designated image.disk other place) : inum = other ∧ slot = place := by
  rw [imaged.designated_eq bounded] at present same
  rw [imaged.designated_eq otherBounded] at same
  exact Prod.mk.inj (imaged.laid.handed.apart (inum, slot) (other, place) present same)

theorem Imaged.bit_iff (few : files.length + 1 < ninodes) (room : image.freeblock ≤ BPB)
    {sector : Nat} (inside : sector < BPB) : (image.disk (BBLOCK sector ninodes)).bit sector = true ↔
      sector < DATASTART ∨ ∃ inum < ninodes, ∃ slot, designated image.disk inum slot = sector := by
  have block : BBLOCK sector ninodes = BITMAP := by
    rw [BBLOCK, Nat.div_eq_of_lt inside]
    rfl
  have first := imaged.laid.handed.bounded
  rw [block, imaged.bitmap, bit_bitmapBlock fun used member =>
    Nat.lt_of_lt_of_le (List.mem_range.mp member) room]
  simp only [List.mem_range, decide_eq_true_eq]
  constructor
  · intro used
    by_cases low : sector < DATASTART
    · exact .inl low
    · obtain ⟨⟨inum, slot⟩, found⟩ := imaged.laid.handed.onto sector (Nat.not_lt.mp low) used
      have bounded : inum < ninodes := by
        by_contra outside
        have empty : layoutOf files inum = [] := by
          rw [layoutOf, if_neg (by simp only [ROOTINO]; omega), if_pos (by omega), List.getElem?_eq_none (by omega)]
          rfl
        have tight := imaged.tight inum
        rw [empty] at tight
        have zero := tight.unplaced (imaged.laid.holds inum) slot
        rw [zero] at found
        exact low (found ▸ by decide)
      refine .inr ⟨inum, bounded, slot, ?_⟩
      rw [imaged.designated_eq bounded]
      exact found
  · rintro (low | ⟨inum, bounded, slot, found⟩)
    · exact Nat.lt_of_lt_of_le low first
    · rw [imaged.designated_eq bounded] at found
      by_cases zero : sector = 0
      · rw [zero]
        exact Nat.lt_of_lt_of_le (by decide) first
      · rw [← found]
        exact (imaged.laid.inside inum slot (found ▸ zero)).2

end Sectors

/-- `mkfs` writes what the kernel reads. -/
theorem kernel_reads_mkfs {files : List InputFile} (fitting : Fitting files) : ∃ image, mkfs files = some image ∧
      (∀ file ∈ files, ∀ drivers memo off n, MemoOk .full memo → off ≤ file.content.length → off + n < 2 ^ 32 →
        returned (readNamed file.target off n (mounted drivers image.disk, memo)) =
          some (some (((file.slice off n).length : Int), file.slice off n))) ∧
      (∀ inum < ninodes, ∀ other < ninodes, ∀ slot place, designated image.disk inum slot ≠ 0 →
        designated image.disk inum slot = designated image.disk other place →
        inum = other ∧ slot = place) ∧
      ∀ sector < BPB, (image.disk (BBLOCK sector ninodes)).bit sector = true ↔
        sector < DATASTART ∨ ∃ inum < ninodes, ∃ slot, designated image.disk inum slot = sector := by
  obtain ⟨image, ran⟩ := mkfs_of_acceptable fitting.acceptable fitting.few
  obtain ⟨laidFiles, imaged⟩ := imaged_of_mkfs ran fitting.few
  refine ⟨image, ran, ?_, ?_, ?_⟩
  · intro file member drivers memo off n allowed inside bounded
    obtain ⟨position, found⟩ := List.mem_iff_getElem?.mp member
    exact imaged.readNamed_eq fitting found drivers allowed inside bounded
  · intro inum bounded other otherBounded slot place present same
    exact imaged.designated_apart bounded otherBounded present same
  · intro sector inside
    refine imaged.bit_iff fitting.inodes ?_ inside
    rw [imaged.free]
    exact Nat.le_trans fitting.sectors (by decide)

/-- A file `_hi` of two bytes. -/
def greeting : InputFile where
  name := [95, 104, 105]
  noNul := by decide
  reads := some [⟨[72, 105], by decide⟩]

theorem kernel_reads_greeting : Fitting [greeting] ∧ ∃ image, mkfs [greeting] = some image ∧
    returned (readNamed [104, 105] 0 512 (mounted {} image.disk, {})) = some (some (2, [72, 105])) := by
  have fitting : Fitting [greeting] := by
    refine ⟨?_, ?_, List.pairwise_singleton _ _, ?_, ?_, by decide, by decide⟩
    all_goals simp only [List.mem_singleton, forall_eq]
    all_goals decide
  obtain ⟨image, ran, reads, _⟩ := kernel_reads_mkfs fitting
  refine ⟨fitting, image, ran, ?_⟩
  exact reads greeting (List.mem_singleton.mpr rfl) {} {} 0 512
    ⟨fun still => absurd still (by decide), fun still => absurd still (by decide), .inl rfl⟩
    (by decide) (by decide)

end Xv6Dedup.Mkfs
