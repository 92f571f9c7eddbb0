import Mathlib.Data.List.Nodup

/-!
# Owned frames

Frames of a pool are free, held by a running program, or occupy one place of a
structure. What is neither is lost, but no frame is in two of them.
-/

set_option autoImplicit false

namespace Xv6Dedup

open Function

variable {P F : Type}

/-- No frame is used twice: `occupant` tells the frame at each place, `free` is the
free list and `loose` are the frames that a program holds. -/
structure Owned (occupant : P → Option F) (free loose : List F) : Prop where
  nodup : (loose ++ free).Nodup
  apart : ∀ place frame, occupant place = some frame → frame ∉ loose ++ free
  once : ∀ first second frame, occupant first = some frame → occupant second = some frame →
    first = second

namespace Owned

variable {occupant : P → Option F} {free loose : List F} {frame : F} {place : P}

theorem take (owned : Owned occupant (frame :: free) loose) : Owned occupant free (frame :: loose) where
  nodup := (List.perm_middle.nodup_iff).mp owned.nodup
  apart place other occupied member :=
    owned.apart place other occupied (List.perm_middle.mem_iff.mpr member)
  once := owned.once

section

variable (owned : Owned occupant free (frame :: loose))
include owned

theorem give : Owned occupant (frame :: free) loose where
  nodup := (List.perm_middle.nodup_iff).mpr owned.nodup
  apart place other occupied member :=
    owned.apart place other occupied (List.perm_middle.mem_iff.mp member)
  once := owned.once

theorem lose : Owned occupant free loose where
  nodup := (List.nodup_cons.mp owned.nodup).2
  apart place other occupied member :=
    owned.apart place other occupied (List.mem_cons_of_mem _ member)
  once := owned.once

/-- The program puts a frame that it holds to some place; what was there is lost. -/
theorem occupy [DecidableEq P] (place : P) : Owned (update occupant place (some frame)) free loose := by
  have unused : ∀ other, occupant other ≠ some frame := fun other occupied =>
    owned.apart other frame occupied List.mem_cons_self
  refine ⟨(List.nodup_cons.mp owned.nodup).2, fun other held occupied => ?_, fun first second held one two => ?_⟩
  · by_cases here : other = place
    · rw [here, update_self, Option.some.injEq] at occupied
      rw [← occupied]
      exact (List.nodup_cons.mp owned.nodup).1
    · rw [update_of_ne here] at occupied
      exact fun member => owned.apart other held occupied (List.mem_cons_of_mem _ member)
  · by_cases firstHere : first = place
    · by_cases secondHere : second = place
      · exact firstHere.trans secondHere.symm
      · rw [firstHere, update_self] at one
        rw [update_of_ne secondHere, ← one] at two
        exact absurd two (unused second)
    · rw [update_of_ne firstHere] at one
      by_cases secondHere : second = place
      · rw [secondHere, update_self] at two
        rw [← two] at one
        exact absurd one (unused first)
      · rw [update_of_ne secondHere] at two
        exact owned.once first second held one two

end

section

variable (owned : Owned occupant free loose)
include owned

theorem forget {fewer : P → Option F} (less : ∀ place frame, fewer place = some frame → occupant place = some frame) :
    Owned fewer free loose where
  nodup := owned.nodup
  apart place frame occupied := owned.apart place frame (less place frame occupied)
  once first second frame one two :=
    owned.once first second frame (less first frame one) (less second frame two)

theorem vacate [DecidableEq P] (occupied : occupant place = some frame) :
    Owned (update occupant place none) free (frame :: loose) := by
  have kept : ∀ other held, update occupant place none other = some held →
      other ≠ place ∧ occupant other = some held := by
    intro other held still
    by_cases here : other = place
    · rw [here, update_self] at still
      cases still
    · rw [update_of_ne here] at still
      exact ⟨here, still⟩
  refine ⟨List.nodup_cons.mpr ⟨owned.apart place frame occupied, owned.nodup⟩,
    fun other held still => ?_, fun first second held one two => ?_⟩
  · obtain ⟨elsewhere, before⟩ := kept other held still
    rintro member
    rcases List.mem_cons.mp member with rfl | member
    · exact elsewhere (owned.once other place held before occupied)
    · exact owned.apart other held before member
  · exact owned.once first second held (kept first held one).2 (kept second held two).2

/-- What is put to a place, whichever frames are loose, was free. -/
theorem drawn {after : P → Option F} {rest : List F}
    (keeps : ∀ loose, Owned occupant free loose → Owned after rest loose) (held : after place = some frame)
    (kept : ∀ other, occupant other = some frame → after other = some frame ∧ other ≠ place) : frame ∈ free := by
  by_contra taken
  have unused : ∀ other, occupant other ≠ some frame := fun other before =>
    (kept other before).2 ((keeps loose owned).once other place frame (kept other before).1 held)
  have apart : frame ∉ loose := fun member =>
    (keeps loose owned).apart place frame held (List.mem_append_left _ member)
  -- so the frame could as well be loose
  have more : Owned occupant free (frame :: loose) := by
    refine ⟨List.nodup_cons.mpr ⟨fun member => ?_, owned.nodup⟩, fun other x before member => ?_, owned.once⟩
    · exact (List.mem_append.mp member).elim apart taken
    · rcases List.mem_cons.mp member with rfl | member
      · exact unused other before
      · exact owned.apart other x before member
  exact (keeps _ more).apart place frame held List.mem_cons_self

/-- The frames of some places are freed. -/
theorem release [DecidableEq P] {places : List P} (nodup : places.Nodup) :
    Owned (fun place => if place ∈ places then none else occupant place)
      ((places.filterMap occupant).reverse ++ free) loose := by
  induction places generalizing occupant free with
  | nil => simpa using owned
  | cons place rest ih =>
    obtain ⟨apart, nodup⟩ := List.nodup_cons.mp nodup
    cases occupied : occupant place with
    | none =>
      rw [List.filterMap_cons_none occupied]
      refine (ih owned nodup).forget fun other held still => ?_
      split at still
      · cases still
      · rename_i kept
        rwa [if_neg fun member => kept (List.mem_cons_of_mem _ member)]
    | some frame =>
      have less : ∀ other, other ∈ rest → update occupant place none other = occupant other := by
        rintro other member
        exact update_of_ne (by rintro rfl; exact apart member) _ _
      have later := ih (owned.vacate occupied).give nodup
      rw [List.filterMap_congr less] at later
      rw [List.filterMap_cons_some occupied, List.reverse_cons, List.append_assoc]
      refine later.forget fun other held still => ?_
      split at still
      · cases still
      · rename_i kept
        rw [if_neg fun member => kept (List.mem_cons_of_mem _ member),
          update_of_ne fun same => kept (List.mem_cons.mpr (.inl same))]
        exact still

end

end Owned

end Xv6Dedup
