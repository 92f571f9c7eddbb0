import Mathlib.Algebra.BigOperators.Group.Finset.Piecewise
import Mathlib.Data.Fintype.Basic

/-!
# Shared blocks with reference counts

Slots `P` point to blocks `S`. Several slots may share a block; every block has
a counter of `w` bits that should hold the number of its slots minus one, and a
flag that should be set while it is in use.
-/

set_option autoImplicit false

namespace Xv6Dedup.Sharing

open Function

section Users

variable {P S : Type} [DecidableEq S]

/-- How many of the slots point to `block`. -/
def users (slots : Finset P) (ptr : P → S) (block : S) : Nat :=
  (slots.filter fun slot => ptr slot = block).card

variable {slots : Finset P} {ptr : P → S}

theorem users_pos_iff {block : S} : 0 < users slots ptr block ↔ ∃ slot ∈ slots, ptr slot = block := by
  simp only [users, Finset.card_pos, Finset.Nonempty, Finset.mem_filter]

theorem users_congr {other : P → S} {block : S} (same : ∀ slot ∈ slots, ptr slot = block ↔ other slot = block) :
    users slots ptr block = users slots other block := by
  unfold users
  rw [Finset.filter_congr same]

variable [DecidableEq P]

private theorem users_update_target {slot : P} {target : S} (member : slot ∈ slots) (moved : ptr slot ≠ target) :
    users slots (update ptr slot target) target = users slots ptr target + 1 := by
  have absent : slot ∉ slots.filter fun other => ptr other = target := by simp [moved]
  unfold users
  rw [← Finset.card_insert_of_notMem absent]
  congr 1
  ext other
  by_cases same : other = slot
  · subst same
    simp [member]
  · simp [same]

theorem users_update {slot : P} {target : S} (member : slot ∈ slots) (moved : ptr slot ≠ target) :
    users slots (update ptr slot target) = update (update (users slots ptr) target (users slots ptr target + 1))
        (ptr slot) (users slots ptr (ptr slot) - 1) := by
  funext block
  by_cases isOld : block = ptr slot
  · subst isOld
    rw [update_self]
    have back : users slots (update (update ptr slot target) slot (ptr slot))
        (ptr slot) = users slots (update ptr slot target) (ptr slot) + 1 :=
      users_update_target member (by rw [update_self]; exact moved.symm)
    rw [update_idem, update_eq_self] at back
    omega
  · rw [update_of_ne isOld]
    by_cases isTarget : block = target
    · subst isTarget
      rw [update_self]
      exact users_update_target member moved
    · rw [update_of_ne isTarget]
      apply users_congr
      intro other _
      by_cases same : other = slot
      · subst same
        rw [update_self]
        exact ⟨fun equal => absurd equal.symm isTarget, fun equal => absurd equal.symm isOld⟩
      · rw [update_of_ne same]

/-- The users of any block before and after a slot has been assigned. -/
theorem users_balance (ptr : P → S) {slot : P} (member : slot ∈ slots) (target block : S) :
    users slots (update ptr slot target) block + (if ptr slot = block then 1 else 0) =
      users slots ptr block + if target = block then 1 else 0 := by
  by_cases moved : ptr slot = target
  · rw [← moved, update_eq_self]
  · rw [users_update member moved]
    by_cases isOld : block = ptr slot
    · subst isOld
      have used : 0 < users slots ptr (ptr slot) := users_pos_iff.mpr ⟨slot, member, rfl⟩
      rw [update_self, if_pos rfl, if_neg (Ne.symm moved)]
      omega
    · rw [update_of_ne isOld, if_neg (Ne.symm isOld)]
      by_cases isTarget : block = target
      · subst isTarget
        rw [update_self, if_pos rfl]
      · rw [update_of_ne isTarget, if_neg (Ne.symm isTarget)]

end Users

section Contents

variable {P S C : Type} [DecidableEq S] [DecidableEq C]

/-- How many of the slots point to a block with contents `value`. -/
def sharers (slots : Finset P) (null : S) (content : S → C) (ptr : P → S) (value : C) : Nat :=
  (slots.filter fun slot => ptr slot ≠ null ∧ content (ptr slot) = value).card

variable {slots : Finset P} {null : S} {content : S → C} {ptr : P → S}

/-- The sharers depend on what the slots hold, not on where it is stored. -/
theorem sharers_congr {other : P → S} (same : ∀ slot, (other slot = null ↔ ptr slot = null) ∧
      content (other slot) = content (ptr slot)) :
    sharers slots null content other = sharers slots null content ptr := by
  funext value
  unfold sharers
  congr 1
  apply Finset.filter_congr
  intro slot _
  rw [(same slot).2, Ne, (same slot).1]

theorem users_le_sharers {block : S} (present : block ≠ null) :
    users slots ptr block ≤ sharers slots null content ptr (content block) := by
  apply Finset.card_le_card
  intro slot member
  obtain ⟨included, points⟩ := Finset.mem_filter.mp member
  exact Finset.mem_filter.mpr ⟨included, by rw [points]; exact present, by rw [points]⟩

end Contents

/-! ## Counters -/

/-- A counter and a flag for every block. -/
structure Counters (S : Type) (w : Nat) where
  ref : S → BitVec w
  used : S → Bool

section Counters

variable {S : Type} [DecidableEq S] {w : Nat}

def Counters.raise (counters : Counters S w) (block : S) : Counters S w :=
  { counters with ref := update counters.ref block (counters.ref block + 1) }

/-- Give up one use of a block, which is freed when its counter is zero. -/
def Counters.drop (counters : Counters S w) (block : S) : Counters S w :=
  if counters.ref block = 0 then
    { counters with used := update counters.used block false }
  else { counters with ref := update counters.ref block (counters.ref block - 1) }

theorem Counters.used_drop (counters : Counters S w) (block other : S) : (counters.drop block).used other =
      if counters.ref block = 0 ∧ other = block then false else counters.used other := by
  unfold Counters.drop
  by_cases zero : counters.ref block = 0
  · rw [if_pos zero]
    by_cases same : other = block
    · simp [zero, same]
    · simp [same]
  · rw [if_neg zero, if_neg fun both => zero both.1]

/-- The counters are right for `count` users of each block in `Data`; flags are
also set for the blocks with another owner. -/
structure Counts (Data Owned : S → Prop) (count : S → Nat) (counters : Counters S w) :
    Prop where
  ref : ∀ block, Data block → (counters.ref block).toNat = count block - 1
  used : ∀ block, Data block → (counters.used block = true ↔ 0 < count block ∨ Owned block)

variable {Data Owned : S → Prop} {count : S → Nat} {counters : Counters S w} {block : S}

private theorem toNat_add_one {value : BitVec w} (room : value.toNat + 1 < 2 ^ w) :
    (value + 1).toNat = value.toNat + 1 := by
  have one : (1 : BitVec w).toNat = 1 := by
    change 1 % 2 ^ w = 1
    exact Nat.mod_eq_of_lt (by omega)
  rw [BitVec.toNat_add, one, Nat.mod_eq_of_lt room]

theorem toNat_sub_one {value : BitVec w} (nonzero : value ≠ 0) : (value - 1).toNat = value.toNat - 1 := by
  have positive : 0 < value.toNat := by
    apply Nat.pos_of_ne_zero
    intro zero
    exact nonzero (BitVec.eq_of_toNat_eq (by simpa using zero))
  have one : (1 : BitVec w).toNat = 1 := by
    change 1 % 2 ^ w = 1
    exact Nat.mod_eq_of_lt (by omega)
  rw [BitVec.toNat_sub, one]
  rw [show 2 ^ w - 1 + value.toNat = value.toNat - 1 + 2 ^ w by omega, Nat.add_mod_right, Nat.mod_eq_of_lt (by omega)]

variable (counts : Counts Data Owned count counters)
include counts

theorem Counts.raise (shared : 0 < count block) (room : Data block → count block < 2 ^ w) :
    Counts Data Owned (update count block (count block + 1)) (counters.raise block) := by
  constructor
  · intro other data
    by_cases same : other = block
    · subst same
      have before := counts.ref other data
      have small := room data
      simp only [Counters.raise, update_self]
      rw [toNat_add_one (by omega)]
      omega
    · simp only [Counters.raise, update_of_ne same]
      exact counts.ref other data
  · intro other data
    have before := counts.used other data
    by_cases same : other = block
    · subst same
      simp only [Counters.raise, update_self, before]
      exact ⟨fun _ => .inl (Nat.succ_pos _), fun _ => .inl shared⟩
    · simp only [Counters.raise, update_of_ne same]
      exact before

theorem Counts.drop (data : Data block) (shared : 0 < count block) (unowned : ¬ Owned block) :
    Counts Data Owned (update count block (count block - 1)) (counters.drop block) := by
  have before := counts.ref block data
  unfold Counters.drop
  split
  · rename_i zero
    have last : count block = 1 := by
      rw [zero] at before
      simp at before
      omega
    constructor
    · intro other otherData
      by_cases same : other = block
      · subst same
        rw [update_self]
        change (counters.ref other).toNat = _
        omega
      · rw [update_of_ne same]
        exact counts.ref other otherData
    · intro other otherData
      by_cases same : other = block
      · subst same
        simp [last, unowned]
      · simp only [update_of_ne same]
        exact counts.used other otherData
  · rename_i nonzero
    have several := toNat_sub_one nonzero
    constructor
    · intro other otherData
      by_cases same : other = block
      · subst same
        simp only [update_self]
        omega
      · simp only [update_of_ne same]
        exact counts.ref other otherData
    · intro other otherData
      have flag := counts.used other otherData
      by_cases same : other = block
      · subst same
        have positive : 0 < (counters.ref other).toNat := by
          apply Nat.pos_of_ne_zero
          intro zero
          exact nonzero (BitVec.eq_of_toNat_eq (by simpa using zero))
        simp only [update_self, flag]
        exact ⟨fun _ => .inl (by omega), fun _ => .inl shared⟩
      · simp only [update_of_ne same]
        exact flag

theorem Counts.alloc (data : Data block) (free : counters.used block = false) : Counts Data Owned (update count block 1)
      { counters with used := update counters.used block true } := by
  have unused : ¬ (0 < count block ∨ Owned block) := by
    rw [← counts.used block data, free]
    exact Bool.false_ne_true
  have zero := counts.ref block data
  constructor
  · intro other otherData
    by_cases same : other = block
    · subst same
      rw [update_self]
      change (counters.ref other).toNat = _
      omega
    · rw [update_of_ne same]
      exact counts.ref other otherData
  · intro other otherData
    by_cases same : other = block
    · subst same
      simp only [update_self, Nat.one_pos, true_or]
    · simp only [update_of_ne same]
      exact counts.used other otherData

theorem Counts.own {Owned' : S → Prop} (owned : ∀ other, Owned' other ↔ other = block ∨ Owned other) :
    Counts Data Owned' count { counters with used := update counters.used block true } := by
  refine ⟨counts.ref, fun other data => ?_⟩
  by_cases same : other = block
  · subst same
    simp only [update_self, owned, true_or, or_true]
  · simp only [update_of_ne same, owned, same, false_or]
    exact counts.used other data

theorem Counts.disown {Owned' : S → Prop}
    (owned : ∀ other, Owned' other ↔ other ≠ block ∧ Owned other) (unused : count block = 0) : Counts Data Owned' count
      { counters with used := update counters.used block false } := by
  refine ⟨counts.ref, fun other data => ?_⟩
  by_cases same : other = block
  · subst same
    simp only [update_self, owned, unused, Bool.false_eq_true, ne_eq, not_true_eq_false,
      false_and, or_false, Nat.lt_irrefl]
  · simp only [update_of_ne same, owned, ne_eq, same, not_false_eq_true, true_and]
    exact counts.used other data

end Counters

section Totals

variable {P S : Type} {w : Nat} {Owned : S → Prop} [DecidablePred Owned] {count : S → Nat}
  {counters : Counters S w} {area : Finset S}

/-- Flags and counters together count the uses and the other owners. -/
theorem Counts.total (counts : Counts (· ∈ area) Owned count counters)
    (apart : ∀ block ∈ area, Owned block → count block = 0) :
    (area.filter fun block => counters.used block = true).card + ∑ block ∈ area, (counters.ref block).toNat =
      ∑ block ∈ area, count block + (area.filter Owned).card := by
  rw [Finset.card_filter, Finset.card_filter, ← Finset.sum_add_distrib, ← Finset.sum_add_distrib]
  refine Finset.sum_congr rfl fun block member => ?_
  have ref := counts.ref block member
  have used := counts.used block member
  by_cases owned : Owned block
  · have none := apart block member owned
    rw [if_pos (used.mpr (.inr owned)), if_pos owned]
    omega
  · rw [if_neg owned]
    by_cases positive : 0 < count block
    · rw [if_pos (used.mpr (.inl positive))]
      omega
    · rw [if_neg fun flag => (used.mp flag).elim positive owned]
      omega

theorem sum_users [DecidableEq S] (slots : Finset P) (ptr : P → S) :
    ∑ block ∈ area, users slots ptr block = (slots.filter fun slot => ptr slot ∈ area).card := by
  rw [Finset.card_eq_sum_card_fiberwise (s := slots.filter fun slot => ptr slot ∈ area) (t := area)
    fun slot member => (Finset.mem_filter.mp member).2]
  refine Finset.sum_congr rfl fun block member => ?_
  rw [Finset.filter_filter]
  refine congrArg Finset.card (Finset.filter_congr fun slot _ => ?_)
  constructor
  · intro points
    exact ⟨points ▸ member, points⟩
  · intro both
    exact both.2

end Totals

/-! ## Redirecting a slot -/

/-- Pointers together with their counters. -/
structure Shares (P S : Type) (w : Nat) extends Counters S w where
  ptr : P → S

section Redirect

variable {P S : Type} [DecidableEq P] [DecidableEq S] {w : Nat}

/-- Let a slot point to `target` and give up its old block. -/
def Shares.redirect (shares : Shares P S w) (slot : P) (target : S) : Shares P S w where
  toCounters := (shares.toCounters.raise target).drop (shares.ptr slot)
  ptr := update shares.ptr slot target

/-- The counters count the slots. -/
def Shares.Accounted (slots : Finset P) (Data Owned : S → Prop) (shares : Shares P S w) : Prop :=
  Counts Data Owned (users slots shares.ptr) shares.toCounters

variable {slots : Finset P} {Data Owned : S → Prop} {shares : Shares P S w} {slot : P} {target : S}

theorem Shares.Accounted.redirect (accounted : shares.Accounted slots Data Owned)
    (member : slot ∈ slots) (moved : shares.ptr slot ≠ target)
    (oldData : Data (shares.ptr slot)) (unowned : ¬ Owned (shares.ptr slot))
    (shared : 0 < users slots shares.ptr target) (room : users slots shares.ptr target < 2 ^ w) :
    (shares.redirect slot target).Accounted slots Data Owned := by
  have old : 0 < users slots shares.ptr (shares.ptr slot) := users_pos_iff.mpr ⟨slot, member, rfl⟩
  have raised := Counts.raise accounted shared fun _ => room
  have moves := users_update member moved
  have dropped := raised.drop oldData (by rwa [update_of_ne moved]) unowned
  rw [update_of_ne moved] at dropped
  unfold Shares.Accounted
  simp only [Shares.redirect]
  rw [moves]
  exact dropped

end Redirect

end Xv6Dedup.Sharing
