import Xv6Dedup.Base.Bytes

/-!
# The kernel's and the user library's `memmove`

The kernel copies downwards when the source begins below a destination it
overlaps; the library always copies upwards, and its `n` is an `int`. Addresses
are numbers: a range ends at `2 ^ 32` at most, and no byte is read or written at
the end of one.
-/

set_option autoImplicit false

namespace Xv6Dedup.Memmove

open Function

abbrev Memory := Nat → Byte

/-- `while(n-- > 0) *d++ = *s++;` -/
def copyUp (memory : Memory) (d s : Nat) : (n : Nat) → Memory
  | 0 => memory
  | n + 1 => copyUp (update memory d (memory s)) (d + 1) (s + 1) n

/-- `while(n-- > 0) *--d = *--s;` -/
def copyDown (memory : Memory) (d s : Nat) : (n : Nat) → Memory
  | 0 => memory
  | n + 1 => copyDown (update memory (d - 1) (memory (s - 1))) (d - 1) (s - 1) n

/-- `memmove` of `string.c`. -/
def Kernel.memmove (memory : Memory) (dst src n : Nat) : Memory :=
  if src < dst ∧ dst < (src + n) % 2 ^ 32 then copyDown memory (dst + n) (src + n) n
  else copyUp memory dst src n

/-- The number as an `int`. -/
def signed (n : Nat) : Int := if n < 2 ^ 31 then n else n - 2 ^ 32

/-- `memmove` of `ulib.c`. -/
def Ulib.memmove (memory : Memory) (dst src n : Nat) : Memory := copyUp memory dst src (signed n).toNat

/-- Every byte of the destination comes from the place `source` gives for its offset. -/
def filled (memory : Memory) (dst n : Nat) (source : Nat → Nat) : Memory := fun address =>
  if dst ≤ address ∧ address < dst + n then memory (source (address - dst)) else memory address

/-- The destination holds the bytes of the source, and no other byte has changed. -/
def moved (memory : Memory) (dst src n : Nat) : Memory := filled memory dst n (src + ·)

/-! ## The loops -/

variable {memory : Memory} {dst src n : Nat} {source other : Nat → Nat}

theorem filled_zero : filled memory dst 0 source = memory := by
  funext address
  exact if_neg (by omega)

theorem filled_self : filled memory dst n (dst + ·) = memory := by
  funext address
  simp only [filled]
  split
  · rw [Nat.add_sub_cancel' (by omega)]
  · rfl

/-- One more byte at the end. -/
theorem filled_succ : update (filled memory dst n source) (dst + n) (memory (source n)) =
    filled memory dst (n + 1) source := by
  funext address
  unfold filled
  by_cases last : address = dst + n
  · rw [last, update_self, if_pos (by omega), Nat.add_sub_cancel_left]
  · rw [update_of_ne last]
    exact if_congr (by omega) rfl rfl

theorem filled_inside {i : Nat} (inside : i < n) : filled memory dst n source (dst + i) = memory (source i) := by
  unfold filled
  rw [if_pos (by omega), Nat.add_sub_cancel_left]

theorem filled_eq_iff : filled memory dst n source = filled memory dst n other ↔
    ∀ i < n, memory (source i) = memory (other i) := by
  constructor
  · intro same i inside
    have here := congrFun same (dst + i)
    rwa [filled_inside inside, filled_inside inside] at here
  · intro same
    funext address
    unfold filled
    split
    · exact same _ (by omega)
    · rfl

theorem copyUp_succ (memory : Memory) (d s n : Nat) : copyUp memory d s (n + 1) =
    update (copyUp memory d s n) (d + n) (copyUp memory d s n (s + n)) := by
  induction n generalizing memory d s with
  | zero => rfl
  | succ n ih =>
    rw [copyUp, ih, Nat.add_right_comm d, Nat.add_right_comm s]
    rfl

/-- Upwards, each byte read is still the original one when the destination begins no later. -/
theorem copyUp_below (below : dst ≤ src) : copyUp memory dst src n = moved memory dst src n := by
  induction n with
  | zero => exact filled_zero.symm
  | succ n ih =>
    have original : moved memory dst src n (src + n) = memory (src + n) := if_neg (by omega)
    rw [copyUp_succ, ih, original]
    exact filled_succ

/-- Otherwise the bytes before the destination come again and again. -/
theorem copyUp_above (above : src < dst) :
    copyUp memory dst src n = filled memory dst n fun i => src + i % (dst - src) := by
  induction n with
  | zero => exact filled_zero.symm
  | succ n ih =>
    have again : filled memory dst n (fun i => src + i % (dst - src)) (src + n) = memory (src + n % (dst - src)) := by
      simp only [filled]
      by_cases reached : dst ≤ src + n
      · rw [if_pos (by omega), show src + n - dst = n - (dst - src) by omega, ← Nat.mod_eq_sub_mod (by omega)]
      · rw [if_neg (by omega), Nat.mod_eq_of_lt (by omega)]
    rw [copyUp_succ, ih, again]
    exact filled_succ

/-- Downwards, when the destination begins no earlier. -/
theorem copyDown_above (above : src ≤ dst) : copyDown memory (dst + n) (src + n) n = moved memory dst src n := by
  induction n generalizing memory with
  | zero => exact filled_zero.symm
  | succ n ih =>
    rw [copyDown, Nat.add_succ_sub_one, Nat.add_succ_sub_one, ih]
    funext address
    simp only [moved, filled]
    by_cases last : address = dst + n
    · rw [last, if_neg (by omega), if_pos (by omega), update_self, Nat.add_sub_cancel_left]
    · rw [update_of_ne last]
      by_cases inside : dst ≤ address ∧ address < dst + n
      · rw [if_pos inside, if_pos (by omega), update_of_ne (by omega)]
      · rw [if_neg inside, if_neg (by omega)]

theorem kernel_memmove (source : src + n ≤ 2 ^ 32) (destination : dst + n ≤ 2 ^ 32) :
    Kernel.memmove memory dst src n = moved memory dst src n := by
  unfold Kernel.memmove
  split
  · exact copyDown_above (by omega)
  · by_cases above : src < dst
    · -- the ranges are disjoint, as `src + n` does not wrap
      rw [copyUp_above above, moved, filled_eq_iff]
      intro i inside
      rw [Nat.mod_eq_of_lt (by omega)]
    · exact copyUp_below (by omega)

/-! ## Agreement -/

/-- The bytes the library's loop leaves in the destination are those of the source. From `2 ^ 31` on
its loop does not run; upwards into a destination above the source it repeats the first `dst - src` bytes. -/
def Repeats (memory : Memory) (dst src n : Nat) : Prop :=
  if n < 2 ^ 31 then src < dst → ∀ i < n, memory (src + i % (dst - src)) = memory (src + i)
  else ∀ i < n, memory (dst + i) = memory (src + i)

theorem ulib_memmove (fits : n ≤ 2 ^ 32) :
    Ulib.memmove memory dst src n = moved memory dst src n ↔ Repeats memory dst src n := by
  unfold Ulib.memmove Repeats
  by_cases small : n < 2 ^ 31
  · have count : (signed n).toNat = n := by rw [signed, if_pos small, Int.toNat_natCast]
    rw [count, if_pos small]
    by_cases above : src < dst
    · rw [copyUp_above above, moved, filled_eq_iff]
      exact ⟨fun same _ => same, fun same => same above⟩
    · exact iff_of_true (copyUp_below (by omega)) fun wrong => absurd wrong above
  · have count : (signed n).toNat = 0 := by
      rw [signed]
      omega
    rw [count, if_neg small, copyUp, moved, ← filled_eq_iff, filled_self]

theorem memmoves_agree_iff (source : src + n ≤ 2 ^ 32) (destination : dst + n ≤ 2 ^ 32) :
    (Ulib.memmove memory dst src n = Kernel.memmove memory dst src n ∧
      Kernel.memmove memory dst src n = moved memory dst src n) ↔ Repeats memory dst src n := by
  rw [kernel_memmove source destination, ulib_memmove (by omega)]
  exact and_iff_left rfl

/-- Each address holds its own number. -/
def numbered : Memory := BitVec.ofNat 8

theorem memmoves_agree_overlapping : Ulib.memmove numbered 0 1 2 = Kernel.memmove numbered 0 1 2 := by
  have downwards : Repeats numbered 0 1 2 := by
    rw [Repeats, if_pos (by decide)]
    nofun
  exact ((memmoves_agree_iff (by decide) (by decide)).mpr downwards).1

theorem memmoves_differ : ¬ (Ulib.memmove numbered 1 0 2 = Kernel.memmove numbered 1 0 2 ∧
    Kernel.memmove numbered 1 0 2 = moved numbered 1 0 2) := by
  intro agree
  exact absurd (congrFun agree.1 2) (by decide)

end Xv6Dedup.Memmove
