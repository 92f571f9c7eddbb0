import Mathlib.Tactic.Common

/-!
# Sequences of writes

A store with addresses `κ` and contents `β` changed by a list of writes, oldest
first. A crash keeps some leading part of the list.
-/

set_option autoImplicit false

namespace Xv6Dedup

open Function

variable {κ β : Type} [DecidableEq κ]

/-- The store after the given writes. -/
def afterWrites (store : κ → β) : List (κ × β) → κ → β
  | [] => store
  | write :: rest => afterWrites (update store write.1 write.2) rest

@[simp] theorem afterWrites_nil (store : κ → β) : afterWrites store [] = store := rfl

@[simp] theorem afterWrites_cons (store : κ → β) (write : κ × β) (rest : List (κ × β)) :
    afterWrites store (write :: rest) = afterWrites (update store write.1 write.2) rest := rfl

theorem afterWrites_append (store : κ → β) (first second : List (κ × β)) :
    afterWrites store (first ++ second) = afterWrites (afterWrites store first) second := by
  induction first generalizing store with
  | nil => rfl
  | cons write rest ih => exact ih _

theorem afterWrites_of_not_mem {store : κ → β} {writes : List (κ × β)} {address : κ}
    (absent : address ∉ writes.map (·.1)) : afterWrites store writes address = store address := by
  induction writes generalizing store with
  | nil => rfl
  | cons write rest ih =>
    rw [List.map_cons, List.mem_cons, not_or] at absent
    rw [afterWrites_cons, ih absent.2]
    exact update_of_ne absent.1 _ _

theorem afterWrites_of_mem {first second : κ → β} {writes : List (κ × β)} {address : κ}
    (member : address ∈ writes.map (·.1)) : afterWrites first writes address = afterWrites second writes address := by
  induction writes generalizing first second with
  | nil => simp at member
  | cons write rest ih =>
    rw [afterWrites_cons, afterWrites_cons]
    by_cases later : address ∈ rest.map (·.1)
    · exact ih later
    · have same : address = write.1 := by simpa [later] using member
      rw [afterWrites_of_not_mem later, afterWrites_of_not_mem later, same, update_self, update_self]

theorem afterWrites_congr {first second : κ → β} {writes : List (κ × β)} {address : κ}
    (same : first address = second address) : afterWrites first writes address = afterWrites second writes address := by
  induction writes generalizing first second with
  | nil => exact same
  | cons write rest ih =>
    refine ih ?_
    rw [update_apply, update_apply, same]

/-- A leading part of `first ++ second` is one of `first`, or all of `first`
followed by a leading part of `second`. -/
theorem take_append_cases {α : Type} (first second : List α) (count : Nat) :
    (count ≤ first.length ∧ (first ++ second).take count = first.take count) ∨ (first.length < count ∧
        (first ++ second).take count = first ++ second.take (count - first.length)) := by
  rcases Nat.lt_or_ge first.length count with past | within
  · right
    exact ⟨past, by rw [List.take_append, List.take_of_length_le (Nat.le_of_lt past)]⟩
  · left
    refine ⟨within, ?_⟩
    rw [List.take_append, Nat.sub_eq_zero_of_le within, List.take_zero, List.append_nil]

end Xv6Dedup
