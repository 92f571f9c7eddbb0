import Xv6Dedup.Kernel.Reading

/-!
# Directories

When two names compare equal, and what `dirlookup` finds outside transactions.
-/

set_option autoImplicit false

namespace Xv6Dedup

open Program

/-! ## Names -/

theorem strncmp_succ (p q : Nat → Byte) (n position : Nat) : strncmp p q n (position + 1) =
      strncmp (fun index => p (index + 1)) (fun index => q (index + 1)) n position := by
  induction n generalizing position with
  | zero => rfl
  | succ n ih => simp only [strncmp, ih]

theorem strncmp_cstring_eq_zero_iff {first second : List Byte} (n : Nat) (firstFree : 0 ∉ first)
    (secondFree : 0 ∉ second) : strncmp (cstring first) (cstring second) n 0 = 0 ↔ first.take n = second.take n := by
  have tailed : ∀ (head : Byte) (rest : List Byte),
      (fun index => cstring (head :: rest) (index + 1)) = cstring rest := fun _ _ => rfl
  induction n generalizing first second with
  | zero => simp [strncmp]
  | succ n ih =>
    unfold strncmp
    cases first with
    | nil =>
      cases second with
      | nil => simp [cstring]
      | cons head rest =>
        have nonzero : head ≠ 0 := fun zero => secondFree (by simp [zero])
        have value : head.toNat ≠ 0 := by simpa [← BitVec.toNat_inj] using nonzero
        simp only [cstring, List.getD_nil, List.getD_cons_zero, List.take_nil, List.take_succ_cons]
        simp
        omega
    | cons head rest =>
      have nonzero : head ≠ 0 := fun zero => firstFree (by simp [zero])
      have value : head.toNat ≠ 0 := by simpa [← BitVec.toNat_inj] using nonzero
      cases second with
      | nil =>
        simp only [cstring, List.getD_nil, List.getD_cons_zero, List.take_nil, List.take_succ_cons]
        simp
        exact value
      | cons other others =>
        rw [strncmp_succ, tailed]
        by_cases same : head = other
        · subst same
          have both : cstring (head :: rest) 0 ≠ 0 ∧
              cstring (head :: rest) 0 = cstring (head :: others) 0 := ⟨nonzero, rfl⟩
          rw [if_pos both]
          refine (ih (fun member => firstFree (List.mem_cons_of_mem _ member))
            fun member => secondFree (List.mem_cons_of_mem _ member)).trans ?_
          simp
        · have apart : ¬ (cstring (head :: rest) 0 ≠ 0 ∧
              cstring (head :: rest) 0 = cstring (other :: others) 0) := fun both =>
            same both.2
          have values : head.toNat ≠ other.toNat := fun equal =>
            same (BitVec.eq_of_toNat_eq equal)
          rw [if_neg apart]
          simp only [cstring, List.getD_cons_zero, List.take_succ_cons, List.cons.injEq, same, false_and, iff_false]
          omega

theorem namecmp_cstring_eq_zero_iff {first second : List Byte} (firstFree : 0 ∉ first) (secondFree : 0 ∉ second) :
    namecmp (cstring first) (cstring second) = 0 ↔ first.take DIRSIZ = second.take DIRSIZ :=
  strncmp_cstring_eq_zero_iff DIRSIZ firstFree secondFree

/-! ## Looking up -/

def direntAt (blocks : Blocks) (inode : Dinode) (position : Nat) : Dirent :=
  Dirent.ofBytes (fileBytes blocks inode (16 * position) 16)

/-- `dirlookup` takes the entry. -/
def Dirent.Matches (de : Dirent) (name : List Byte) : Prop :=
  de.inum ≠ 0 ∧ namecmp (cstring name) de.name = 0

section Lookup

variable {free : Freedom} {state : State} {Stops : Stop → State → Prop} {dp : Slot} {inode : Dinode}
  {name : List Byte}

theorem readDirent_wp {Post : Dirent → State → Prop} {position : Nat} {message : String}
    (calm : Calm ∅ ∅ state) (current : (state.icache dp).toDinode = inode) (fits : inode.Fits)
    (directory : inode.type = T_DIR) (inside : 16 * position + 16 ≤ inode.size)
    (mapped : Mapped state.data inode (16 * position) 16) (next : Post (direntAt state.data inode position) state) :
    FsWp free (readDirent dp (16 * position) message) state Post Stops := by
  have bounded := fits.size
  have small : (16 * position + 16) % 2 ^ 32 = 16 * position + 16 := Nat.mod_eq_of_lt (by omega)
  have result : readResult state.drivers state.data inode (16 * position) 16 =
      some (16, fileBytes state.data inode (16 * position) 16) := by
    unfold readResult
    rw [if_neg (by rw [directory]; decide), if_neg (by omega), small, if_neg (Nat.not_lt.mpr inside)]
    exact if_pos mapped
  refine Wp.seq ((readi_wp calm current).stops fun _ _ none => ?_) ?_
  · rw [result] at none
    cases none
  · rintro ⟨r, bytes⟩ after ⟨read, rfl⟩
    rw [result] at read
    obtain ⟨rfl, rfl⟩ := Prod.mk.inj (Option.some.inj read)
    exact Wp.ite (fun short => absurd rfl short) fun _ => Wp.pure next

theorem dirlookupFrom_wp {Post : Option (Slot × Nat) → State → Prop} {count position found : Nat}
    (calm : Calm ∅ ∅ state) (current : (state.icache dp).toDinode = inode) (fits : inode.Fits)
    (directory : inode.type = T_DIR) (enough : found < position + count) (order : position ≤ found)
    (inside : 16 * found + 16 ≤ inode.size) (mapped : ∀ earlier ≤ found, Mapped state.data inode (16 * earlier) 16)
    (before : ∀ earlier, position ≤ earlier → earlier < found → ¬ (direntAt state.data inode earlier).Matches name)
    (here : (direntAt state.data inode found).Matches name)
    (next : FsWp free (iget (direntAt state.data inode found).inum) state
      (fun ip after => Post (some (ip, 16 * found)) after) Stops) :
    FsWp free (dirlookupFrom dp name count (16 * position)) state Post Stops := by
  induction count generalizing position with
  | zero => exact absurd enough (by omega)
  | succ count ih =>
    refine Wp.peek ?_
    rw [current]
    refine Wp.ite (fun past => absurd past (by omega)) fun _ => ?_
    refine Wp.bind (readDirent_wp calm current fits directory (by omega) (mapped position order) ?_)
    rcases Nat.eq_or_lt_of_le order with same | later
    · subst same
      exact Wp.ite (fun _ => Wp.bind (next.post fun _ _ => Wp.pure)) fun other =>
        absurd here other
    · refine Wp.ite (fun matching => absurd matching (before position (Nat.le_refl _) later)) fun _ => ?_
      rw [show 16 * position + 16 = 16 * (position + 1) by omega]
      exact ih (by omega) (by omega) fun earlier lower => before earlier (by omega)

theorem dirlookup_wp {Post : Option (Slot × Nat) → State → Prop} (found : Nat)
    (calm : Calm ∅ ∅ state) (current : (state.icache dp).toDinode = inode) (fits : inode.Fits)
    (directory : inode.type = T_DIR) (inside : 16 * found + 16 ≤ inode.size)
    (mapped : ∀ earlier ≤ found, Mapped state.data inode (16 * earlier) 16)
    (before : ∀ earlier < found, ¬ (direntAt state.data inode earlier).Matches name)
    (here : (direntAt state.data inode found).Matches name)
    (next : FsWp free (iget (direntAt state.data inode found).inum) state
      (fun ip after => Post (some (ip, 16 * found)) after) Stops) : FsWp free (dirlookup dp name) state Post Stops := by
  refine Wp.peek ?_
  rw [current]
  refine Wp.ite (fun other => absurd directory other) fun _ => ?_
  have scan : FsWp free (dirlookupFrom dp name (inode.size / 16 + 1) (16 * 0)) state Post Stops :=
    dirlookupFrom_wp calm current fits directory (by omega) (Nat.zero_le _) inside mapped
      (fun earlier _ => before earlier) here next
  exact scan

end Lookup

end Xv6Dedup
