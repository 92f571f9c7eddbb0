import Mathlib.Data.Fintype.Pi

/-!
# Fixed-size byte arrays

Byte arrays of a fixed size with little-endian halfwords and words laid over
them. Every write is one `splice`, so that one frame lemma covers all fields.
-/

set_option autoImplicit false

namespace Xv6Dedup

abbrev Byte := BitVec 8

/-- An array of `size` bytes. -/
abbrev Bytes (size : Nat) := Fin size → Byte

namespace Bytes

variable {size : Nat}

/-- Byte `index`; reads past the end give zero. -/
def get (bytes : Bytes size) (index : Nat) : Byte :=
  if bounded : index < size then bytes ⟨index, bounded⟩ else 0

/-- Copy `count` bytes of `source` to position `start`, as `memmove` does. -/
def splice (bytes : Bytes size) (start count : Nat) (source : Nat → Byte) : Bytes size :=
  fun index => if start ≤ index.val ∧ index.val < start + count then
    source (index.val - start) else bytes index

/-- The array of zero bytes. -/
def zero : Bytes size := fun _ => 0

theorem ext_get {left right : Bytes size} (same : ∀ index < size, left.get index = right.get index) : left = right := by
  funext index
  have equal := same index.val index.isLt
  simpa only [get, index.isLt, dite_true, Fin.eta] using equal

@[simp] theorem get_zero (index : Nat) : (zero : Bytes size).get index = 0 := by
  simp [get, zero]

theorem get_splice (bytes : Bytes size) (start count : Nat) (source : Nat → Byte) (index : Nat) :
    (bytes.splice start count source).get index = if start ≤ index ∧ index < start + count ∧ index < size then
        source (index - start) else bytes.get index := by
  by_cases bounded : index < size
  · by_cases inside : start ≤ index ∧ index < start + count <;>
      simp [get, splice, bounded, inside]
  · simp [get, bounded]

variable {index offset value : Nat}

theorem get_splice_inside (bytes : Bytes size) {start count : Nat} (source : Nat → Byte)
    (lower : start ≤ index) (upper : index < start + count) (bounded : index < size) :
    (bytes.splice start count source).get index = source (index - start) := by
  rw [get_splice, if_pos ⟨lower, upper, bounded⟩]

theorem get_splice_outside (bytes : Bytes size) {start count : Nat} (source : Nat → Byte)
    (outside : index < start ∨ start + count ≤ index) :
    (bytes.splice start count source).get index = bytes.get index := by
  rw [get_splice, if_neg (by omega)]

/-- Replace one byte. -/
def set (bytes : Bytes size) (index : Nat) (value : Byte) : Bytes size :=
  bytes.splice index 1 fun _ => value

theorem get_set (bytes : Bytes size) (index : Nat) (value : Byte) (other : Nat) (bounded : index < size) :
    (bytes.set index value).get other = if other = index then value else bytes.get other := by
  by_cases same : other = index
  · subst other
    rw [set, get_splice_inside _ _ (Nat.le_refl _) (by omega) bounded, if_pos rfl]
  · rw [set, get_splice_outside _ _ (by omega), if_neg same]

/-! ## Little-endian fields -/

/-- Byte `position` of the little-endian representation of `value`. -/
def leByte (value position : Nat) : Byte := BitVec.ofNat 8 (value / 256 ^ position)

/-- The halfword at byte offset `offset`. -/
def half (bytes : Bytes size) (offset : Nat) : Nat :=
  (bytes.get offset).toNat + 256 * (bytes.get (offset + 1)).toNat

/-- The word at byte offset `offset`. -/
def word (bytes : Bytes size) (offset : Nat) : Nat :=
  (bytes.get offset).toNat + 256 * (bytes.get (offset + 1)).toNat +
    65536 * (bytes.get (offset + 2)).toNat + 16777216 * (bytes.get (offset + 3)).toNat

/-- Store a word at byte offset `offset`. -/
def putWord (bytes : Bytes size) (offset value : Nat) : Bytes size :=
  bytes.splice offset 4 (leByte value)

theorem half_lt (bytes : Bytes size) (offset : Nat) : bytes.half offset < 65536 := by
  simp only [half]
  omega

theorem word_lt (bytes : Bytes size) (offset : Nat) : bytes.word offset < 4294967296 := by
  simp only [word]
  omega

@[simp] theorem word_zero (offset : Nat) : (zero : Bytes size).word offset = 0 := by
  simp [word]

@[simp] theorem half_zero (offset : Nat) : (zero : Bytes size).half offset = 0 := by
  simp [half]

section

variable (bytes : Bytes size)
include bytes

theorem half_eq_of_bytes (small : value < 65536)
    (stored : ∀ position < 2, bytes.get (offset + position) = leByte value position) : bytes.half offset = value := by
  have first := stored 0 (by decide)
  have second := stored 1 (by decide)
  simp only [Nat.add_zero] at first
  simp only [half, first, second, leByte, BitVec.toNat_ofNat, pow_zero, pow_one, Nat.div_one]
  omega

theorem word_eq_of_bytes (small : value < 4294967296)
    (stored : ∀ position < 4, bytes.get (offset + position) = leByte value position) : bytes.word offset = value := by
  have first := stored 0 (by decide)
  have second := stored 1 (by decide)
  have third := stored 2 (by decide)
  have fourth := stored 3 (by decide)
  simp only [Nat.add_zero] at first
  simp only [word, first, second, third, fourth, leByte, BitVec.toNat_ofNat, pow_zero, Nat.div_one]
  omega

theorem half_splice_outside {start count : Nat} (source : Nat → Byte)
    (outside : offset + 2 ≤ start ∨ start + count ≤ offset) :
    (bytes.splice start count source).half offset = bytes.half offset := by
  simp only [half]
  rw [get_splice_outside _ _ (by omega), get_splice_outside _ _ (by omega)]

theorem word_splice_outside {start count : Nat} (source : Nat → Byte)
    (outside : offset + 4 ≤ start ∨ start + count ≤ offset) :
    (bytes.splice start count source).word offset = bytes.word offset := by
  simp only [word]
  rw [get_splice_outside _ _ (by omega), get_splice_outside _ _ (by omega),
    get_splice_outside _ _ (by omega), get_splice_outside _ _ (by omega)]

theorem word_putWord_same (bounded : offset + 4 ≤ size) (small : value < 4294967296) :
    (bytes.putWord offset value).word offset = value := by
  apply word_eq_of_bytes _ small
  intro position inside
  rw [putWord, get_splice_inside _ _ (by omega) (by omega) (by omega), Nat.add_sub_cancel_left]

theorem word_putWord_other {other : Nat} (apart : other + 4 ≤ offset ∨ offset + 4 ≤ other) :
    (bytes.putWord offset value).word other = bytes.word other :=
  word_splice_outside _ _ apart

/-! ## Bits -/

end

/-- Bit `index` of the array, the bits of a byte counted from its low end. -/
def bit (bytes : Bytes size) (index : Nat) : Bool :=
  (bytes.get (index / 8)).getLsbD (index % 8)

/-- The mask `1 << (index % 8)`. -/
def mask (index : Nat) : Byte := 1#8 <<< (index % 8)

theorem getLsbD_mask {position : Nat} (small : position < 8) :
    (mask index).getLsbD position = decide (position = index % 8) := by
  simp only [mask, BitVec.getLsbD_shiftLeft, BitVec.getLsbD_one]
  grind

theorem and_mask_eq_zero_iff (value : Byte) (index : Nat) :
    value &&& mask index = 0 ↔ value.getLsbD (index % 8) = false := by
  have small : index % 8 < 8 := Nat.mod_lt _ (by decide)
  constructor
  · intro cleared
    have selected := congrArg (fun bits : Byte => bits.getLsbD (index % 8)) cleared
    simpa [getLsbD_mask small] using selected
  · intro cleared
    apply BitVec.eq_of_getLsbD_eq
    intro position bounded
    rw [BitVec.getLsbD_and, getLsbD_mask bounded]
    by_cases same : position = index % 8
    · simp [same, cleared]
    · simp [same]

/-- Set bit `index`. -/
def setBit (bytes : Bytes size) (index : Nat) : Bytes size :=
  bytes.set (index / 8) (bytes.get (index / 8) ||| mask index)

/-- Clear bit `index`. -/
def clearBit (bytes : Bytes size) (index : Nat) : Bytes size :=
  bytes.set (index / 8) (bytes.get (index / 8) &&& ~~~ mask index)

theorem bit_setBit (bytes : Bytes size) {other : Nat} (bounded : index < 8 * size) :
    (bytes.setBit index).bit other = (bytes.bit other || decide (other = index)) := by
  have small : other % 8 < 8 := Nat.mod_lt _ (by decide)
  simp only [setBit, bit]
  rw [get_set _ _ _ _ (by omega)]
  by_cases sameByte : other / 8 = index / 8
  · rw [if_pos sameByte, BitVec.getLsbD_or, getLsbD_mask small]
    grind
  · rw [if_neg sameByte]
    have apart : other ≠ index := by grind
    simp [apart]

theorem bit_clearBit (bytes : Bytes size) {other : Nat} (bounded : index < 8 * size) :
    (bytes.clearBit index).bit other = (bytes.bit other && !decide (other = index)) := by
  have small : other % 8 < 8 := Nat.mod_lt _ (by decide)
  simp only [clearBit, bit]
  rw [get_set _ _ _ _ (by omega)]
  by_cases sameByte : other / 8 = index / 8
  · rw [if_pos sameByte, BitVec.getLsbD_and, BitVec.getLsbD_not, getLsbD_mask small]
    grind
  · rw [if_neg sameByte]
    have apart : other ≠ index := by grind
    simp [apart]

end Bytes

end Xv6Dedup
