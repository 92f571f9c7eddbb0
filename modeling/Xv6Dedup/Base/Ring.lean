import Mathlib.Data.List.Range
import Mathlib.Data.Nat.ModEq

/-!
# Ring buffers with counters that wrap

A ring buffer whose two counters count every item ever stored and taken, modulo
`2 ^ width`. The place of an item is its number modulo the capacity, which
divides `2 ^ width`, so nothing changes when a counter wraps.
-/

set_option autoImplicit false

namespace Xv6Dedup

open Function

structure Ring (α : Type) (width : Nat) where
  items : Nat → α
  /-- The number of items taken. -/
  head : BitVec width
  /-- The number of items stored. -/
  tail : BitVec width

namespace Ring

variable {α : Type} {width : Nat}

def count (ring : Ring α width) : Nat := (ring.tail - ring.head).toNat

def store (capacity : Nat) (ring : Ring α width) (item : α) : Ring α width :=
  { ring with
    items := update ring.items (ring.tail.toNat % capacity) item
    tail := ring.tail + 1 }

def first (capacity : Nat) (ring : Ring α width) : α := ring.items (ring.head.toNat % capacity)

def rest (ring : Ring α width) : Ring α width := { ring with head := ring.head + 1 }

/-- The items stored and not taken, in order. -/
def contents (capacity : Nat) (ring : Ring α width) : List α :=
  (List.range ring.count).map fun i => ring.items ((ring.head.toNat + i) % capacity)

variable {capacity : Nat} {ring : Ring α width}

theorem tail_eq (ring : Ring α width) : ring.tail = ring.head + BitVec.ofNat width ring.count := by
  unfold count
  rw [BitVec.ofNat_toNat, BitVec.setWidth_eq, BitVec.add_comm, BitVec.sub_add_cancel]

theorem empty_iff (ring : Ring α width) : ring.head = ring.tail ↔ ring.count = 0 := by
  constructor
  · intro same
    unfold count
    rw [same, BitVec.sub_self]
    exact BitVec.toNat_zero ..
  · intro none
    have tail := ring.tail_eq
    rw [none] at tail
    rw [tail]
    simp

theorem full_iff (small : capacity < 2 ^ width) (ring : Ring α width) :
    ring.tail = ring.head + BitVec.ofNat width capacity ↔ ring.count = capacity := by
  constructor
  · intro same
    unfold count
    rw [same, BitVec.add_comm, BitVec.add_sub_cancel, BitVec.toNat_ofNat, Nat.mod_eq_of_lt small]
  · intro all
    rw [← all]
    exact ring.tail_eq

theorem tail_place (divides : capacity ∣ 2 ^ width) (ring : Ring α width) :
    ring.tail.toNat % capacity = (ring.head.toNat + ring.count) % capacity := by
  have tail := congrArg BitVec.toNat ring.tail_eq
  have bound : ring.count < 2 ^ width := (ring.tail - ring.head).isLt
  rw [BitVec.toNat_add, BitVec.toNat_ofNat, Nat.mod_eq_of_lt bound] at tail
  rw [tail, Nat.mod_mod_of_dvd _ divides]

theorem count_store (room : ring.count + 1 < 2 ^ width) (item : α) :
    (ring.store capacity item).count = ring.count + 1 := by
  have tail : (ring.store capacity item).tail = ring.head + BitVec.ofNat width (ring.count + 1) := by
    rw [BitVec.ofNat_add, ← BitVec.add_assoc, ← ring.tail_eq]
    rfl
  have head : (ring.store capacity item).head = ring.head := rfl
  rw [count, tail, head, BitVec.add_comm, BitVec.add_sub_cancel, BitVec.toNat_ofNat, Nat.mod_eq_of_lt room]

theorem contents_store (divides : capacity ∣ 2 ^ width) (small : capacity < 2 ^ width)
    (room : ring.count < capacity) (item : α) :
    (ring.store capacity item).contents capacity = ring.contents capacity ++ [item] := by
  have counted : (ring.store capacity item).count = ring.count + 1 :=
    count_store (Nat.lt_of_le_of_lt room small) item
  unfold contents
  rw [counted, List.range_succ, List.map_append]
  congr 1
  · -- an older item is at another place
    refine List.map_congr_left fun i member => ?_
    have before : i < ring.count := List.mem_range.mp member
    refine update_of_ne (fun same => ?_) ..
    rw [tail_place divides] at same
    have congruent : i ≡ ring.count [MOD capacity] := Nat.ModEq.add_left_cancel' _ same
    have equal : i = ring.count := by
      rw [← Nat.mod_eq_of_lt (Nat.lt_trans before room), ← Nat.mod_eq_of_lt room]
      exact congruent
    exact Nat.ne_of_lt before equal
  · rw [List.map_singleton]
    congr 1
    unfold store
    dsimp only
    rw [← tail_place divides]
    exact update_self ..

theorem count_rest (some : ring.count ≠ 0) : ring.rest.count + 1 = ring.count := by
  have bound : ring.count < 2 ^ width := (ring.tail - ring.head).isLt
  have one : (1 : BitVec width) = BitVec.ofNat width 1 := rfl
  obtain ⟨n, counted⟩ := Nat.exists_eq_succ_of_ne_zero some
  have tail : ring.tail = ring.head + 1 + BitVec.ofNat width n := by
    rw [one, BitVec.add_assoc, ← BitVec.ofNat_add, ring.tail_eq, counted, Nat.succ_eq_one_add]
  have rest : ring.rest.count = n := by
    unfold count Ring.rest
    rw [tail, BitVec.add_comm, BitVec.add_sub_cancel, BitVec.toNat_ofNat, Nat.mod_eq_of_lt]
    exact Nat.lt_of_succ_lt (counted ▸ bound)
  rw [rest, counted]

theorem contents_rest (divides : capacity ∣ 2 ^ width) (some : ring.count ≠ 0) :
    ring.contents capacity = ring.first capacity :: ring.rest.contents capacity := by
  unfold contents
  rw [← count_rest some, List.range_succ_eq_map, List.map_cons, List.map_map]
  congr 1
  refine List.map_congr_left fun i _ => ?_
  unfold Ring.rest
  dsimp only [Function.comp]
  congr 1
  have lift (n : Nat) : n % 2 ^ width ≡ n [MOD capacity] :=
    (Nat.mod_modEq n (2 ^ width)).of_dvd divides
  have sum : (ring.head.toNat + 1 % 2 ^ width) % 2 ^ width + i ≡ ring.head.toNat + 1 + i [MOD capacity] :=
    ((lift _).trans ((lift 1).add_left _)).add_right i
  rw [Nat.succ_eq_one_add, ← Nat.add_assoc]
  exact sum.symm

theorem length_contents : (ring.contents capacity).length = ring.count := by
  unfold contents
  rw [List.length_map, List.length_range]

end Ring

end Xv6Dedup
