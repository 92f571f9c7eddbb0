import Xv6Dedup.Mkfs.Laying

/-!
# Appending to files

What `iappend` does to the files of an image, or when it fails: only if some
sector number leaves the image or the file grows past `MAXFILE` blocks.
-/

set_option autoImplicit false

namespace Xv6Dedup.Mkfs

open Function Program

abbrev MkWp {α : Type} (program : MkfsM α) (build : Build) (Post : α → Build → Prop)
    (Stops : Failure → Build → Prop) : Prop :=
  Wp (fun _ : Unit => True) program build Post Stops

section Sectors

variable {build : Build} {Stops : Failure → Build → Prop} {sec : Nat}

theorem rsect_wp {Post : Block → Build → Prop} (inside : sec < build.sectors → Post (build.disk sec) build)
    (outside : ¬ sec < build.sectors → Stops (.exit 1) build) : MkWp (rsect sec) build Post Stops :=
  Wp.see (Wp.ite (fun within => Wp.pure (inside within)) fun past => Wp.throw (outside past))

theorem wappend_wp {Post : Unit → Build → Prop} {buf : Block}
    (next : Post () (build.stored sec buf)) : MkWp (wappend sec buf) build Post Stops :=
  Wp.set (Wp.change next)

theorem takeBlock_wp {Post : Nat → Build → Prop} (next : Post build.freeblock build.taken) :
    MkWp takeBlock build Post Stops :=
  Wp.see (Wp.set (Wp.pure next))

end Sectors

/-! ## Blocks for a length -/

/-- The number of sectors that a file of some length takes. -/
def sectorsFor (length : Nat) : Nat :=
  (length + (BSIZE - 1)) / BSIZE + if NDIRECT * BSIZE < length then 1 else 0

structure Tight (file : LaidFile) (length : Nat) : Prop where
  blocks : file.blocks = (length + (BSIZE - 1)) / BSIZE
  tabled : file.tabled = true ↔ NDIRECT < file.blocks

variable {file : LaidFile}

theorem Tight.sectors {length : Nat} (tight : Tight file length) : file.sectors = sectorsFor length := by
  have asked : file.tabled = true ↔ NDIRECT * BSIZE < length := by
    rw [tight.tabled, tight.blocks]
    simp only [NDIRECT, BSIZE]
    omega
  rw [LaidFile.sectors, sectorsFor, tight.blocks]
  simp only [asked]

theorem sectorsFor_mono {shorter longer : Nat} (shorterLe : shorter ≤ longer) :
    sectorsFor shorter ≤ sectorsFor longer := by
  simp only [sectorsFor, NDIRECT, BSIZE]
  split <;> split <;> omega

/-! ## One block -/

/-- Everything but the data area and the allocation of blocks is as before. -/
structure SameOutside (build next : Build) : Prop where
  disk : ∀ sector < DATASTART, next.disk sector = build.disk sector
  freeinode : next.freeinode = build.freeinode
  inums : next.inums = build.inums

theorem SameOutside.refl (build : Build) : SameOutside build build :=
  ⟨fun _ _ => rfl, rfl, rfl⟩

theorem SameOutside.trans {first second third : Build} (left : SameOutside first second)
    (right : SameOutside second third) : SameOutside first third where
  disk sector below := (right.disk sector below).trans (left.disk sector below)
  freeinode := right.freeinode.trans left.freeinode
  inums := right.inums.trans left.inums

theorem SameOutside.stored (build : Build) {sector : Nat} (data : Block)
    (inside : DATASTART ≤ sector) : SameOutside build (build.stored sector data) where
  disk _ below := update_of_ne (by omega) _ _
  freeinode := rfl
  inums := rfl

theorem SameOutside.taken (build : Build) : SameOutside build build.taken :=
  ⟨fun _ _ => rfl, rfl, rfl⟩

/-- The parts of an inode that `iappend` keeps. -/
structure SameKind (inode other : Dinode) : Prop where
  type : other.type = inode.type
  major : other.major = inode.major
  minor : other.minor = inode.minor
  nlink : other.nlink = inode.nlink

def Build.AllWritten (build : Build) : Prop :=
  ∀ sector, DATASTART ≤ sector → sector < build.freeblock → sector ∈ build.appended

/-- What `appendSector` establishes for a file with `length` bytes: a block for
the next byte. -/
structure Extended (files : Nat → LaidFile) (inum : Nat) (build : Build) (din : Dinode) (x : Nat)
    (next : Build) (file : LaidFile) : Prop where
  inode : din = file.inode
  kind : SameKind (files inum).inode file.inode
  content : file.content = (files inum).content
  tight : Tight file ((files inum).content.length + 1)
  sector : x = blockPointer next.disk file.inode ((files inum).content.length / BSIZE)
  laid : Laid (update files inum file) next
  outside : SameOutside build next
  written : ∀ sector, DATASTART ≤ sector → sector < next.freeblock → sector = x ∨ sector ∈ next.appended

section Append

variable {files : Nat → LaidFile} {build : Build} {inum : Nat} {Fits : Prop}

private theorem extended_refl (laid : Laid files build) (tight : Tight (files inum) (files inum).content.length)
    (there : (files inum).content.length / BSIZE < (files inum).blocks) (written : build.AllWritten) :
    Extended files inum build (files inum).inode
      (blockPointer build.disk (files inum).inode ((files inum).content.length / BSIZE)) build (files inum) where
  inode := rfl
  kind := ⟨rfl, rfl, rfl, rfl⟩
  content := rfl
  tight := by
    refine ⟨?_, tight.tabled⟩
    have blocks := tight.blocks
    simp only [BSIZE] at *
    omega
  sector := rfl
  laid := by rwa [update_eq_self]
  outside := SameOutside.refl build
  written sector lower upper := .inr (written sector lower upper)

private theorem tight_next (tight : Tight (files inum) (files inum).content.length)
    (full : (files inum).content.length / BSIZE = (files inum).blocks) :
    (files inum).blocks + 1 = ((files inum).content.length + 1 + (BSIZE - 1)) / BSIZE ∧
      (files inum).content.length = BSIZE * (files inum).blocks := by
  have blocks := tight.blocks
  simp only [BSIZE] at *
  omega

private theorem extended_direct (laid : Laid files build) (bounded : inum < INODELIMIT)
    (tight : Tight (files inum) (files inum).content.length)
    (full : (files inum).content.length / BSIZE = (files inum).blocks)
    (direct : (files inum).blocks < NDIRECT) (limit : build.freeblock ≤ size) (written : build.AllWritten) :
    Extended files inum build ((files inum).addDirect build.freeblock).inode build.freeblock
      build.taken ((files inum).addDirect build.freeblock) where
  inode := rfl
  kind := ⟨rfl, rfl, rfl, rfl⟩
  content := rfl
  tight := by
    refine ⟨(tight_next tight full).1, ?_⟩
    have tabled := tight.tabled
    simp only [LaidFile.addDirect]
    rw [tabled]
    omega
  sector := by
    rw [full]
    exact ((blockPointer_setDirect build.disk (files inum).inode build.freeblock direct _).trans (if_pos rfl)).symm
  laid := laid.addDirect bounded direct (by simp only [size] at limit; omega)
  outside := SameOutside.taken build
  written sector lower upper := by
    rcases Nat.lt_succ_iff_lt_or_eq.mp upper with before | last
    · exact .inr (written sector lower before)
    · exact .inl last

private theorem extended_entry (laid : Laid files build) (bounded : inum < INODELIMIT)
    (tabled : (files inum).tabled = true) (full : (files inum).content.length / BSIZE = (files inum).blocks)
    (asked : (files inum).blocks + 1 = ((files inum).content.length + 1 + (BSIZE - 1)) / BSIZE)
    (indirect : NDIRECT ≤ (files inum).blocks) (inside : (files inum).blocks < MAXFILE)
    (limit : build.freeblock ≤ size + 1) (within : (files inum).inode.addr NDIRECT < build.sectors)
    (written : ∀ sector, DATASTART ≤ sector → sector < build.freeblock →
      sector = (files inum).inode.addr NDIRECT ∨ sector ∈ build.appended) :
    Extended files inum build (files inum).inode build.freeblock (build.taken.stored ((files inum).inode.addr NDIRECT)
        (putEntry (build.disk ((files inum).inode.addr NDIRECT)) ((files inum).blocks - NDIRECT)
          build.freeblock)) (files inum).addEntry where
  inode := rfl
  kind := ⟨rfl, rfl, rfl, rfl⟩
  content := rfl
  tight := ⟨asked, iff_of_true tabled (Nat.lt_succ_of_le indirect)⟩
  sector := by
    have present := (laid.holds inum).tabled.mpr tabled
    rw [full]
    refine ((blockPointer_putEntry present ?_ ?_ _).trans (if_pos ?_)).symm
    · simp only [MAXFILE] at inside
      omega
    · simp only [size] at limit
      omega
    · exact (Nat.add_sub_cancel' indirect).symm
  laid := laid.addEntry bounded tabled indirect inside (by simp only [size] at limit; omega) within
  outside := by
    have range := laid.inside inum MAXFILE
    have lower := (range ((laid.holds inum).tabled.mpr tabled)).1
    exact (SameOutside.taken build).trans (SameOutside.stored build.taken _ lower)
  written sector lower upper := by
    rcases Nat.lt_succ_iff_lt_or_eq.mp upper with before | last
    · rcases written sector lower before with table | earlier
      · exact .inr (List.mem_append_right _ (List.mem_singleton.mpr table))
      · exact .inr (List.mem_append_left _ earlier)
    · exact .inl last

variable {din : Dinode}

theorem appendAddr_wp {Post : Dinode → Build → Prop} {Stops : Failure → Build → Prop} {index : Nat}
    (present : din.addr index ≠ 0 → Post din build)
    (missing : din.addr index = 0 → Post (din.setAddr index build.freeblock) build.taken) :
    MkWp (appendAddr din index) build Post Stops :=
  Wp.ite (fun zero => Wp.bind (takeBlock_wp (Wp.pure (missing zero)))) fun nonzero => Wp.pure (present nonzero)

private theorem appendEntry_wp {Post : Dinode × Nat → Build → Prop} (holds : Holds build.disk file)
    (tabled : file.tabled = true) (indirect : NDIRECT ≤ file.content.length / BSIZE)
    (inside : file.content.length / BSIZE < MAXFILE)
    (outside : ¬ file.inode.addr NDIRECT < build.sectors → ¬ Fits)
    (present : file.content.length / BSIZE < file.blocks →
      Post (file.inode, blockPointer build.disk file.inode (file.content.length / BSIZE)) build)
    (missing : file.inode.addr NDIRECT < build.sectors → ¬ file.content.length / BSIZE < file.blocks →
      Post (file.inode, build.freeblock) (build.taken.stored (file.inode.addr NDIRECT)
        (putEntry (build.disk (file.inode.addr NDIRECT)) (file.content.length / BSIZE - NDIRECT) build.freeblock))) :
    MkWp (do
      let indirect ← rsect (file.inode.addr NDIRECT)
      if entryAt indirect (file.content.length / BSIZE - NDIRECT) = 0 then do
        let block ← takeBlock
        wappend (file.inode.addr NDIRECT) (putEntry indirect (file.content.length / BSIZE - NDIRECT) block)
        pure (file.inode, block)
      else pure (file.inode, entryAt indirect (file.content.length / BSIZE - NDIRECT))) build
      Post (fun _ _ => ¬ Fits) := by
  have pointer : blockPointer build.disk file.inode (file.content.length / BSIZE) =
      entryAt (build.disk (file.inode.addr NDIRECT)) (file.content.length / BSIZE - NDIRECT) := by
    rw [blockPointer, if_neg (Nat.not_lt.mpr indirect), if_pos ⟨inside, holds.tabled.mpr tabled⟩]
  have iff := holds.present (file.content.length / BSIZE)
  rw [pointer] at iff present
  refine Wp.bind (rsect_wp (fun within => ?_) outside)
  refine Wp.ite (fun zero => ?_) (fun nonzero => Wp.pure (present (iff.mp nonzero)))
  exact Wp.bind (takeBlock_wp (Wp.bind (wappend_wp (Wp.pure (missing within fun there =>
    iff.mpr there zero)))))

variable {next : Build}

private theorem Extended.afterTable {x : Nat} {sector : Nat}
    (extended : Extended (update files inum ((files inum).addTable sector)) inum
      build.taken din x next file) : Extended files inum build din x next file := by
  obtain ⟨inode, kind, content, tight, pointer, laid, outside, written⟩ := extended
  rw [update_self] at kind content tight pointer
  rw [update_idem] at laid
  exact ⟨inode, { kind with }, content, tight, pointer, laid, (SameOutside.taken build).trans outside, written⟩

theorem appendSector_wp (laid : Laid files build) (bounded : inum < INODELIMIT)
    (tight : Tight (files inum) (files inum).content.length)
    (inside : (files inum).content.length / BSIZE < MAXFILE) (limit : build.freeblock ≤ size)
    (room : Fits → build.freeblock + sectorsFor ((files inum).content.length + 1) ≤
      size + sectorsFor (files inum).content.length) (written : build.AllWritten) :
    MkWp (appendSector (files inum).inode ((files inum).content.length / BSIZE)) build
      (fun result next => ∃ file, Extended files inum build result.1 result.2 next file) (fun _ _ => ¬ Fits) := by
  have holds := laid.holds inum
  have blocks := tight.blocks
  have full : ¬ (files inum).content.length / BSIZE < (files inum).blocks →
      (files inum).content.length / BSIZE = (files inum).blocks := by
    simp only [BSIZE] at *
    omega
  refine Wp.ite (fun direct => ?_) (fun past => ?_)
  · have pointer : blockPointer build.disk (files inum).inode ((files inum).content.length / BSIZE) =
          (files inum).inode.addr ((files inum).content.length / BSIZE) := if_pos direct
    have iff := holds.present ((files inum).content.length / BSIZE)
    rw [pointer] at iff
    refine Wp.bind (appendAddr_wp (fun present => Wp.pure ?_) fun missing => Wp.pure ?_)
    · have extended := extended_refl laid tight (iff.mp present) written
      rw [pointer] at extended
      exact ⟨_, extended⟩
    · have last := full fun there => iff.mpr there missing
      rw [last] at direct ⊢
      have extended := extended_direct laid bounded tight last direct limit written
      refine ⟨(files inum).addDirect build.freeblock, ?_⟩
      have entry : ((files inum).inode.setAddr (files inum).blocks build.freeblock).addr
          (files inum).blocks = build.freeblock := by
        rw [Dinode.addr_setAddr _ _ _ (Nat.lt_succ_of_lt direct), if_pos rfl]
      rw [entry]
      exact extended
  · have indirect : NDIRECT ≤ (files inum).content.length / BSIZE := Nat.not_lt.mp past
    refine Wp.bind (appendAddr_wp (fun present => ?_) fun missing => ?_)
    · have tabled := holds.tabled.mp present
      have range := laid.inside inum MAXFILE
      have within : (files inum).inode.addr NDIRECT < build.sectors := by
        rw [laid.sectors]
        exact Nat.lt_of_lt_of_le (range present).2 limit
      refine appendEntry_wp holds tabled indirect inside (fun past => absurd within past)
        (fun there => ?_) (fun _ absent => ?_)
      · exact ⟨_, extended_refl laid tight there written⟩
      · have last := full absent
        rw [last] at indirect inside ⊢
        exact ⟨_, extended_entry laid bounded tabled last (tight_next tight last).1 indirect inside
          (Nat.le_succ_of_le limit) within fun sector lower upper =>
            .inr (written sector lower upper)⟩
    · -- a new table: the file has exactly its direct blocks
      have untabled : (files inum).tabled = false := by
        rw [← Bool.not_eq_true, ← holds.tabled]
        exact fun present => present missing
      have exact12 : (files inum).blocks = NDIRECT ∧ (files inum).content.length / BSIZE = (files inum).blocks := by
        have few : ¬ NDIRECT < (files inum).blocks := fun many =>
          Bool.noConfusion (untabled.symm.trans (tight.tabled.mpr many))
        omega
      obtain ⟨twelve, last⟩ := exact12
      have laidTable := laid.addTable bounded untabled (by simp only [size] at limit; omega)
      have self : update files inum ((files inum).addTable build.freeblock) inum =
          (files inum).addTable build.freeblock := update_self _ _ _
      have holdsTable := laidTable.holds inum
      rw [self] at holdsTable
      have table : ((files inum).addTable build.freeblock).inode.addr NDIRECT = build.freeblock := by
        rw [LaidFile.addTable, Dinode.addr_setAddr _ _ _ (Nat.lt_succ_self _), if_pos rfl]
      refine appendEntry_wp holdsTable rfl indirect inside (fun past fits => past ?_)
        (fun there => ?_) (fun within absent => ?_)
      · have enough := room fits
        have lengthEq : (files inum).content.length = NDIRECT * BSIZE := by
          rw [(tight_next tight last).2, twelve, Nat.mul_comm]
        change build.freeblock < build.sectors
        rw [laid.sectors]
        rw [lengthEq] at enough
        simp only [sectorsFor, NDIRECT, BSIZE, Nat.lt_irrefl, if_false] at enough
        omega
      · exact absurd there (Nat.not_lt.mpr (Nat.le_of_eq last.symm))
      · have extended := extended_entry laidTable bounded
        rw [self] at extended
        have tables : ∀ sector, DATASTART ≤ sector → sector < build.taken.freeblock →
            sector = ((files inum).addTable build.freeblock).inode.addr NDIRECT ∨ sector ∈ build.taken.appended := by
          intro sector lower upper
          rcases Nat.lt_succ_iff_lt_or_eq.mp upper with before | new
          · exact .inr (written sector lower before)
          · exact .inl new
        have position : ((files inum).addTable build.freeblock).content.length / BSIZE = (files inum).blocks := last
        rw [position]
        exact ⟨_, (extended rfl last (tight_next tight last).1 (Nat.le_of_eq twelve.symm)
          (last ▸ inside) (Nat.succ_le_succ limit) within tables).afterTable⟩

/-! ## Appending bytes -/

/-- The image holds the files, with the inode `opened` not yet written back. -/
structure Filed (files : Nat → LaidFile) (opened : Option Nat) (build : Build) : Prop where
  laid : Laid files build
  written : build.AllWritten
  inodes : ∀ inum < INODELIMIT, opened ≠ some inum → dinodeOf build.disk inum = (files inum).inode

theorem Laid.limit (laid : Laid files build) (written : build.AllWritten) : build.freeblock ≤ size := by
  rcases Nat.eq_or_lt_of_le laid.handed.bounded with first | more
  · rw [← first]
    decide
  · have last := written (build.freeblock - 1) (by omega) (by omega)
    have inside := (laid.appended _ last).2.2
    omega

theorem iblock_lt_dataStart {other : Nat} (bounded : other < INODELIMIT) : IBLOCK other < DATASTART := by
  simp only [IBLOCK, INODELIMIT, DATASTART, IPB, BSIZE] at *
  omega

theorem SameOutside.dinodeOf (same : SameOutside build next) {other : Nat} (bounded : other < INODELIMIT) :
    Xv6Dedup.dinodeOf next.disk other = Xv6Dedup.dinodeOf build.disk other :=
  dinodeOf_congr (same.disk _ (iblock_lt_dataStart bounded))

/-- What the loop of `iappend` establishes. -/
structure Appended (files : Nat → LaidFile) (inum : Nat) (build : Build) (bytes : List Byte)
    (din : Dinode) (next : Build) (file : LaidFile) : Prop where
  inode : din = file.inode
  kind : SameKind (files inum).inode file.inode
  content : file.content = (files inum).content ++ bytes
  tight : Tight file file.content.length
  filed : Filed (update files inum file) (some inum) next
  outside : SameOutside build next

private theorem appended_nil (filed : Filed files (some inum) build)
    (tight : Tight (files inum) (files inum).content.length) :
    Appended files inum build [] (files inum).inode build (files inum) where
  inode := rfl
  kind := ⟨rfl, rfl, rfl, rfl⟩
  content := (List.append_nil _).symm
  tight := tight
  filed := by rwa [update_eq_self]
  outside := SameOutside.refl build

private theorem Appended.trans {first second : List Byte} {din' : Dinode} {middle : Build} {file' : LaidFile}
    (before : Appended files inum build first din middle file)
    (after : Appended (update files inum file) inum middle second din' next file') :
    Appended files inum build (first ++ second) din' next file' := by
  obtain ⟨inode, kind, content, tight, filed, outside⟩ := after
  rw [update_self] at kind content
  rw [update_idem] at filed
  refine ⟨inode, ?_, ?_, tight, filed, before.outside.trans outside⟩
  · exact ⟨kind.type.trans before.kind.type, kind.major.trans before.kind.major,
      kind.minor.trans before.kind.minor, kind.nlink.trans before.kind.nlink⟩
  · rw [content, before.content, List.append_assoc]

private theorem Extended.inside {x : Nat} (extended : Extended files inum build din x next file) :
    (files inum).content.length / BSIZE < file.blocks ∧ DATASTART ≤ x ∧ x < next.freeblock := by
  have there : (files inum).content.length / BSIZE < file.blocks := by
    rw [extended.tight.blocks]
    simp only [BSIZE]
    omega
  have range := extended.laid.inside inum ((files inum).content.length / BSIZE)
  have holds := extended.laid.holds inum
  rw [update_self] at range holds
  rw [LaidFile.place_block _ _ (Nat.lt_of_lt_of_le there holds.blocks_le), ← extended.sector] at range
  exact ⟨there, range (extended.sector ▸ (holds.present _).mpr there)⟩

private theorem appended_block {x : Nat} {bytes : List Byte} {src : Nat → Byte}
    (filed : Filed files (some inum) build) (bounded : inum < INODELIMIT)
    (extended : Extended files inum build din x next file) (nonempty : bytes ≠ [])
    (room : (files inum).content.length % BSIZE + bytes.length ≤ BSIZE)
    (source : ∀ k < bytes.length, src k = bytes.getD k 0) (within : x < next.sectors) :
    Appended files inum build bytes din
      (next.stored x ((next.disk x).splice ((files inum).content.length % BSIZE) bytes.length src))
      (file.addBytes bytes) := by
  obtain ⟨there, lower, _⟩ := extended.inside
  obtain ⟨inode, kind, content, tight, sector, laid, outside, written⟩ := extended
  have positive := List.length_pos_iff.mpr nonempty
  have self : update files inum file inum = file := update_self _ _ _
  have placed : x = blockPointer next.disk file.inode (file.content.length / BSIZE) := by
    rw [content]
    exact sector
  have filled : Laid (update files inum (file.addBytes bytes))
      (next.stored x ((next.disk x).splice ((files inum).content.length % BSIZE) bytes.length src)) := by
    have appended := laid.addBytes bounded (by rwa [self, content]) (by rwa [self, content]) source
      (by rwa [self, ← placed])
    rwa [self, update_idem, ← placed, content] at appended
  refine ⟨inode, kind, congrArg (· ++ bytes) content, ⟨?_, tight.tabled⟩, ?_, ?_⟩
  · change file.blocks = ((file.content ++ bytes).length + (BSIZE - 1)) / BSIZE
    rw [List.length_append, content, tight.blocks]
    simp only [BSIZE] at *
    omega
  · refine ⟨filled, ?_, ?_⟩
    · intro other above below
      rcases written other above below with same | earlier
      · exact List.mem_append_right _ (List.mem_singleton.mpr same)
      · exact List.mem_append_left _ earlier
    · intro other bounded closed
      have different : other ≠ inum := fun same => closed (congrArg some same.symm)
      rw [update_of_ne different, ← filed.inodes other bounded closed]
      exact ((SameOutside.stored next _ lower).dinodeOf bounded).trans (outside.dinodeOf bounded)
  · exact outside.trans (SameOutside.stored next _ lower)

theorem iappendLoop_wp {p : Nat → Byte} {count tot : Nat} {bytes : List Byte}
    (filed : Filed files (some inum) build) (bounded : inum < INODELIMIT)
    (tight : Tight (files inum) (files inum).content.length) (enough : bytes.length ≤ count)
    (source : ∀ k < bytes.length, p (tot + k) = bytes.getD k 0)
    (fits : Fits → (files inum).content.length + bytes.length ≤ MAXFILE * BSIZE ∧
      build.freeblock + sectorsFor ((files inum).content.length + bytes.length) ≤
        size + sectorsFor (files inum).content.length) :
    MkWp (iappendLoop p count tot (files inum).inode (files inum).content.length bytes.length) build
      (fun result next => result.2 = (files inum).content.length + bytes.length ∧
        ∃ file, Appended files inum build bytes result.1 next file) (fun _ _ => ¬ Fits) := by
  induction count generalizing tot bytes files build with
  | zero =>
    have none : bytes = [] := List.length_eq_zero_iff.mp (Nat.le_zero.mp enough)
    subst none
    exact Wp.pure ⟨rfl, _, appended_nil filed tight⟩
  | succ count ih =>
    refine Wp.ite (fun zero => ?_) (fun more => ?_)
    · have none : bytes = [] := List.length_eq_zero_iff.mp zero
      subst none
      exact Wp.pure ⟨rfl, _, appended_nil filed tight⟩
    have positive : 0 < bytes.length := Nat.pos_of_ne_zero more
    have monotone : sectorsFor ((files inum).content.length + 1) ≤
        sectorsFor ((files inum).content.length + bytes.length) :=
      sectorsFor_mono (Nat.add_le_add_left positive _)
    refine Wp.ite (fun inside => ?_) (fun past => Wp.throw fun fit => ?_)
    · have limit := filed.laid.limit filed.written
      refine Wp.seq (appendSector_wp filed.laid bounded tight inside limit (fun fit => ?_) filed.written) ?_
      · have room := (fits fit).2
        omega
      rintro ⟨din, x⟩ next ⟨file, extended⟩
      have grown := filed.laid.free_update extended.laid bounded
      rw [tight.sectors, extended.tight.sectors] at grown
      refine Wp.bind (rsect_wp (fun within => ?_) fun outside fit => outside ?_)
      · generalize part : min bytes.length
          (((files inum).content.length / 512 + 1) * 512 - (files inum).content.length) = n1
        have offset : (files inum).content.length - (files inum).content.length / 512 * 512 =
            (files inum).content.length % BSIZE := by
          simp only [BSIZE]
          omega
        have some : 0 < n1 ∧ n1 ≤ bytes.length ∧ (files inum).content.length % BSIZE + n1 ≤ BSIZE := by
          simp only [BSIZE]
          omega
        obtain ⟨started, available, room⟩ := some
        have taken : (bytes.take n1).length = n1 := List.length_take_of_le available
        have left : (bytes.drop n1).length = bytes.length - n1 := List.length_drop
        have nonempty : bytes.take n1 ≠ [] := by
          rw [← List.length_pos_iff, taken]
          exact started
        have sourceTaken : ∀ k < (bytes.take n1).length, p (tot + k) = (bytes.take n1).getD k 0 := by
          intro k small
          rw [taken] at small
          rw [source k (Nat.lt_of_lt_of_le small available), List.getD_eq_getElem?_getD,
            List.getD_eq_getElem?_getD, List.getElem?_take_of_lt small]
        have sourceLeft : ∀ k < (bytes.drop n1).length, p (tot + n1 + k) = (bytes.drop n1).getD k 0 := by
          intro k small
          rw [Nat.add_assoc, source (n1 + k) (by omega), List.getD_eq_getElem?_getD,
            List.getD_eq_getElem?_getD, List.getElem?_drop]
        have block := appended_block filed bounded extended nonempty (by rwa [taken]) sourceTaken within
        rw [taken] at block
        rw [offset]
        refine Wp.bind (wappend_wp ?_)
        have self : update files inum (file.addBytes (bytes.take n1)) inum =
            file.addBytes (bytes.take n1) := update_self _ _ _
        have length : (file.addBytes (bytes.take n1)).content.length = (files inum).content.length + n1 := by
          rw [block.content, List.length_append, taken]
        have sameSectors : sectorsFor ((files inum).content.length + 1) =
            sectorsFor ((files inum).content.length + n1) := by
          rw [← extended.tight.sectors, ← length, ← block.tight.sectors]
          rfl
        have rest := ih block.filed (by rw [self]; exact block.tight) (by omega) sourceLeft fun fit => by
            obtain ⟨small, room⟩ := fits fit
            rw [self, length, left, Nat.add_assoc, Nat.add_sub_cancel' available]
            refine ⟨small, ?_⟩
            change next.freeblock + _ ≤ _
            omega
        rw [self, length, left, ← block.inode] at rest
        refine rest.post ?_
        rintro ⟨din', off⟩ last ⟨offEq, file', appended⟩
        refine ⟨?_, file', ?_⟩
        · omega
        · have whole := block.trans appended
          rwa [List.take_append_drop] at whole
      · have room := (fits fit).2
        have upper := extended.inside.2.2
        rw [extended.laid.sectors]
        omega
    · have room := (fits fit).1
      simp only [MAXFILE, NDIRECT, NINDIRECT, BSIZE] at *
      omega

end Append

end Xv6Dedup.Mkfs
