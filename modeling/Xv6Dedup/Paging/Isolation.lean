import Xv6Dedup.Paging.Processes

/-!
# Isolation of address spaces

In every state between calls no frame that a process can reach through its user
pages is used for anything else.
-/

set_option autoImplicit false

namespace Xv6Dedup.Paging

open Function Program

section Isolation

variable {vm next : Vm} {loose : List Nat} {d page frame : Nat} {dir : Pgdir}

/-- States that calls lead to. -/
inductive Vm.Reaches (start : Vm) : Vm → Prop where
  | refl : Vm.Reaches start start
  | step {vm next : Vm} {pid : Fin NPROC} {call : Call} {result : Int}
      (before : Vm.Reaches start vm) (last : vm.Step pid call result next) : Vm.Reaches start next

/-- The frame is mapped at a user page of some directory. -/
def Vm.UserFrame (vm : Vm) (d page frame : Nat) : Prop :=
  page < KERNPAGE ∧ ∃ dir entry, vm.dirs d = some dir ∧ dir.entry page = some entry ∧ entry.frame = frame

theorem UserFrame.occupant (user : vm.UserFrame d page frame) : vm.occupant (.inside d (.page page)) = some frame := by
  obtain ⟨low, dir, entry, present, mapped, rfl⟩ := user
  rw [occupant_inside present]
  simp only [Pgdir.frameAt, if_pos low, mapped, Option.map_some]

theorem Vm.Owns.elsewhere (owns : vm.Owns loose) (user : vm.UserFrame d page frame) {place : Place}
    (held : vm.occupant place = some frame) : place = .inside d (.page page) :=
  owns.once _ _ frame held (UserFrame.occupant user)

end Isolation

end Xv6Dedup.Paging
