import Xv6Dedup.Kernel.Layout

/-!
# One pass of deduplication

What `dedup` does to the block pointers, without the kernel around it: every
pointer of every file is visited once, and redirected to the first pointer that
comes later in the scan, designates another sector and has the same contents.
-/

set_option autoImplicit false

namespace Xv6Dedup

open Function Sharing

/-- Pointers, reference bytes and bitmap bits of an image. -/
abbrev Image := Shares Pointer Nat 8

section Pass

variable (free : Bool) (IsFile : Nat → Prop) (content : Blocks)

/-- The pointers a block is compared with: later blocks of its own file, and all
blocks of the files with higher inode numbers. -/
def Candidate (p c : Pointer) : Prop :=
  c.2 < MAXFILE ∧ ((c.1 = p.1 ∧ p.2 < c.2) ∨ (p.1 < c.1 ∧ IsFile c.1))

/-- The order of comparison: the own file from its last block down, then the
other files from the highest inode number down, each from its last block. -/
def Earlier (p d c : Pointer) : Prop :=
  (d.1 = p.1 ∧ (c.1 = p.1 → c.2 < d.2)) ∨ (d.1 ≠ p.1 ∧ c.1 ≠ p.1 ∧ (c.1 < d.1 ∨ (d.1 = c.1 ∧ c.2 < d.2)))

/-- Two pointers to different sectors with the same contents. -/
structure Match (image : Image) (p c : Pointer) : Prop where
  filled : image.ptr p ≠ 0
  present : image.ptr c ≠ 0
  different : image.ptr c ≠ image.ptr p
  same : content (image.ptr p) = content (image.ptr c)

/-- For a block in the indirect table the search of other files also skips what
a direct block of the file designates: the one whose index is the position in
the table. -/
def Skips (image : Image) (p c : Pointer) : Prop :=
  c.1 ≠ p.1 ∧ NDIRECT ≤ p.2 ∧ p.2 - NDIRECT < NDIRECT ∧ image.ptr c = image.ptr (p.1, p.2 - NDIRECT)

/-- From position `NDIRECT + 1` of the table on, that comparison reads past the
end of `addrs`, so it may skip anything. -/
def Overruns (p c : Pointer) : Prop := c.1 ≠ p.1 ∧ NDIRECT + NDIRECT + 1 ≤ p.2

/-- The comparison of `p` with `c` does not redirect `p`. -/
def Missed (image : Image) (p c : Pointer) : Prop :=
  Match content image p c → Skips image p c ∨ (free = true ∧ Overruns p c)

inductive BlockStep (p : Pointer) (image : Image) : Image → Prop where
  | hole (empty : image.ptr p = 0) : BlockStep p image image
  | unique (filled : image.ptr p ≠ 0) (missed : ∀ c, Candidate IsFile p c → Missed free content image p c) :
      BlockStep p image image
  | shared (c : Pointer) (candidate : Candidate IsFile p c) (found : Match content image p c)
      (taken : ¬ Skips image p c)
      (first : ∀ d, Candidate IsFile p d → Earlier p d c → Missed free content image p d) :
      BlockStep p image (image.redirect p (image.ptr c))

inductive Steps (initial : Image) : List Pointer → Image → Prop where
  | nil : Steps initial [] initial
  | snoc {done : List Pointer} {p : Pointer} {image next : Image} (before : Steps initial done image)
      (step : BlockStep free IsFile content p image next) : Steps initial (done ++ [p]) next

end Pass

def row (inum count : Nat) : List Pointer := (List.range count).map fun index => (inum, index)

theorem row_succ (inum count : Nat) : row inum (count + 1) = row inum count ++ [(inum, count)] := by
  simp [row, List.range_succ]

theorem mem_row {inum count : Nat} {p : Pointer} : p ∈ row inum count ↔ p.1 = inum ∧ p.2 < count := by
  simp only [row, List.mem_map, List.mem_range]
  constructor
  · rintro ⟨index, bounded, rfl⟩
    exact ⟨rfl, bounded⟩
  · rintro ⟨same, bounded⟩
    exact ⟨p.2, bounded, by rw [← same]⟩

/-- The pointers of all files with inode numbers below `inum`, in scan order. -/
def scanBelow (IsFile : Nat → Prop) [DecidablePred IsFile] : Nat → List Pointer
  | 0 => []
  | inum + 1 => scanBelow IsFile inum ++ if IsFile inum then row inum MAXFILE else []

theorem mem_scanBelow {IsFile : Nat → Prop} [DecidablePred IsFile] {inum : Nat} {p : Pointer} :
    p ∈ scanBelow IsFile inum ↔ IsFile p.1 ∧ p.1 < inum ∧ p.2 < MAXFILE := by
  induction inum with
  | zero => simp [scanBelow]
  | succ inum ih =>
    rw [scanBelow, List.mem_append, ih]
    split
    · rename_i file
      rw [mem_row]
      constructor
      · rintro (⟨isFile, below, bounded⟩ | ⟨same, bounded⟩)
        · exact ⟨isFile, by omega, bounded⟩
        · exact ⟨same ▸ file, by omega, bounded⟩
      · rintro ⟨isFile, below, bounded⟩
        rcases Nat.lt_succ_iff_lt_or_eq.mp below with earlier | same
        · exact .inl ⟨isFile, earlier, bounded⟩
        · exact .inr ⟨same, bounded⟩
    · rename_i other
      simp only [List.not_mem_nil, or_false]
      constructor
      · rintro ⟨isFile, below, bounded⟩
        exact ⟨isFile, by omega, bounded⟩
      · rintro ⟨isFile, below, bounded⟩
        refine ⟨isFile, ?_, bounded⟩
        have different : p.1 ≠ inum := fun same => other (same ▸ isFile)
        omega

/-! ## What every pass preserves -/

section Preservation

variable {free : Bool} {IsFile : Nat → Prop} {content : Blocks} {initial image next : Image}
  {done : List Pointer} {p : Pointer}

section

variable (step : BlockStep free IsFile content p image next)
include step

theorem BlockStep.contents (q : Pointer) :
    (next.ptr q = 0 ↔ image.ptr q = 0) ∧ content (next.ptr q) = content (image.ptr q) := by
  cases step with
  | hole | unique => exact ⟨Iff.rfl, rfl⟩
  | shared c candidate found taken first =>
    simp only [Shares.redirect]
    by_cases same : q = p
    · subst same
      rw [update_self]
      exact ⟨by simp [found.filled, found.present], found.same.symm⟩
    · rw [update_of_ne same]
      exact ⟨Iff.rfl, rfl⟩

theorem BlockStep.other {q : Pointer} (different : q ≠ p) : next.ptr q = image.ptr q := by
  cases step with
  | hole | unique => rfl
  | shared c candidate found taken first => exact update_of_ne different _ _

theorem BlockStep.origin (q : Pointer) : ∃ r, next.ptr q = image.ptr r := by
  cases step with
  | hole | unique => exact ⟨q, rfl⟩
  | shared c candidate found taken first =>
    by_cases same : q = p
    · exact ⟨c, by rw [same]; exact update_self _ _ _⟩
    · exact ⟨q, update_of_ne same _ _⟩

end

section

variable (steps : Steps free IsFile content initial done image)
include steps

theorem Steps.contents (q : Pointer) : (image.ptr q = 0 ↔ initial.ptr q = 0) ∧
      content (image.ptr q) = content (initial.ptr q) := by
  induction steps with
  | nil => exact ⟨Iff.rfl, rfl⟩
  | snoc before step ih =>
    have change := step.contents q
    exact ⟨change.1.trans ih.1, change.2.trans ih.2⟩

theorem Steps.other {q : Pointer} (unvisited : q ∉ done) : image.ptr q = initial.ptr q := by
  induction steps with
  | nil => rfl
  | snoc before step ih =>
    rw [List.mem_append, List.mem_singleton, not_or] at unvisited
    rw [step.other unvisited.2, ih unvisited.1]

theorem Steps.origin (q : Pointer) : ∃ r, image.ptr q = initial.ptr r := by
  induction steps generalizing q with
  | nil => exact ⟨q, rfl⟩
  | snoc before step ih =>
    obtain ⟨r, fromStep⟩ := step.origin q
    obtain ⟨r', fromBefore⟩ := ih r
    exact ⟨r', fromStep.trans fromBefore⟩

/-! ## Accounting -/

end

/-- No contents have more pointers than a reference byte can count. -/
def FewSharers (content : Blocks) (ptr : Pointer → Nat) : Prop :=
  ∀ block, sharers pointers 0 content ptr block ≤ 256

theorem FewSharers.of_contents {ptr ptr' : Pointer → Nat} (few : FewSharers content ptr)
    (same : ∀ q, (ptr' q = 0 ↔ ptr q = 0) ∧ content (ptr' q) = content (ptr q)) : FewSharers content ptr' := by
  intro block
  rw [sharers_congr same]
  exact few block

theorem BlockStep.accounted {Owned : Nat → Prop}
    (step : BlockStep free IsFile content p image next) (member : p ∈ pointers)
    (numbered : ∀ g, IsFile g → 1 ≤ g ∧ g < NINODES) (few : FewSharers content image.ptr)
    (data : ∀ q, image.ptr q ≠ 0 → IsData (image.ptr q) ∧ ¬ Owned (image.ptr q))
    (accounted : image.Accounted pointers IsData Owned) : next.Accounted pointers IsData Owned := by
  cases step with
  | hole | unique => exact accounted
  | shared c candidate found taken first =>
    have targetMember : c ∈ pointers := by
      rw [mem_pointers] at member ⊢
      rcases candidate with ⟨bounded, ⟨same, _⟩ | ⟨_, file⟩⟩
      · exact ⟨same ▸ member.1, bounded⟩
      · exact ⟨numbered _ file, bounded⟩
    have moved : image.ptr p ≠ image.ptr c := found.different.symm
    have shared : 0 < users pointers image.ptr (image.ptr c) :=
      users_pos_iff.mpr ⟨c, targetMember, rfl⟩
    have after : FewSharers content (update image.ptr p (image.ptr c)) :=
      few.of_contents fun q => (BlockStep.shared c candidate found taken first).contents q
    have gained := congrFun (users_update member moved) (image.ptr c)
    rw [update_of_ne moved.symm, update_self] at gained
    have fewer := after (content (image.ptr c))
    have bound : users pointers (update image.ptr p (image.ptr c)) (image.ptr c) ≤
        sharers pointers 0 content (update image.ptr p (image.ptr c))
          (content (image.ptr c)) := users_le_sharers found.present
    exact accounted.redirect member moved (data p found.filled).1 (data p found.filled).2 shared (by omega)

theorem Steps.accounted {Owned : Nat → Prop}
    (steps : Steps free IsFile content initial done image) (members : ∀ q ∈ done, q ∈ pointers)
    (numbered : ∀ g, IsFile g → 1 ≤ g ∧ g < NINODES)
    (few : FewSharers content initial.ptr)
    (data : ∀ q, initial.ptr q ≠ 0 → IsData (initial.ptr q) ∧ ¬ Owned (initial.ptr q))
    (accounted : initial.Accounted pointers IsData Owned) :
    image.Accounted pointers IsData Owned := by
  induction steps with
  | nil => exact accounted
  | snoc before step ih =>
    have earlier := ih fun q member => members q (List.mem_append_left _ member)
    refine step.accounted (members _ (by simp)) numbered (few.of_contents before.contents) ?_ earlier
    intro q present
    obtain ⟨r, origin⟩ := before.origin q
    rw [origin] at present ⊢
    exact data r present

end Preservation

end Xv6Dedup
