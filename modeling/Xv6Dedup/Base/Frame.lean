import Xv6Dedup.Base.Program

/-!
# Frames

What a program leaves alone, as a preorder on the visible state, together with
the reasons for which it may stop. A program keeps a frame when its parts do.
-/

set_option autoImplicit false

namespace Xv6Dedup

open Program

/-- A relation between the states before and after, and the reasons to stop that
the state before allows. -/
structure Frame (ε σ : Type) where
  Rel : σ → σ → Prop
  Stops : σ → ε → Prop
  refl : ∀ state, Rel state state
  trans : ∀ {state middle next}, Rel state middle → Rel middle next → Rel state next
  back : ∀ {state next reason}, Rel state next → Stops next reason → Stops state reason

namespace Frame

variable {ε σ ρ α β : Type} {frame : Frame ε σ} {Hidden : ρ → Prop}

def Keeps (frame : Frame ε σ) (Hidden : ρ → Prop) (program : Program ε σ ρ α) : Prop :=
  ∀ state, Wp Hidden program state (fun _ next => frame.Rel state next) (fun reason _ => frame.Stops state reason)

theorem Keeps.after {program : Program ε σ ρ α} (keeps : frame.Keeps Hidden program)
    {start state : σ} (before : frame.Rel start state) :
    Wp Hidden program state (fun _ next => frame.Rel start next) (fun reason _ => frame.Stops start reason) :=
  (keeps state).mono (fun _ _ => frame.trans before) fun _ _ => frame.back before

theorem Keeps.pure (value : α) : frame.Keeps Hidden (Pure.pure value : Program ε σ ρ α) :=
  fun state => Wp.pure (frame.refl state)

theorem Keeps.throw {reason : ε} (allowed : ∀ state, frame.Stops state reason) :
    frame.Keeps Hidden (MonadExcept.throw reason : Program ε σ ρ α) :=
  fun state => Wp.throw (allowed state)

theorem Keeps.bind {first : Program ε σ ρ β} {rest : β → Program ε σ ρ α}
    (firstKeeps : frame.Keeps Hidden first) (restKeeps : ∀ value, frame.Keeps Hidden (rest value)) :
    frame.Keeps Hidden (first >>= rest) :=
  fun state => Wp.seq (firstKeeps state) fun value _ before => (restKeeps value).after before

theorem Keeps.ite {condition : Prop} [Decidable condition] {yes no : Program ε σ ρ α}
    (yesKeeps : frame.Keeps Hidden yes) (noKeeps : frame.Keeps Hidden no) :
    frame.Keeps Hidden (if condition then yes else no) :=
  fun state => Wp.ite (fun _ => yesKeeps state) fun _ => noKeeps state

theorem Keeps.onlyIf {condition : Prop} [Decidable condition] {program : Program ε σ ρ Unit}
    (keeps : frame.Keeps Hidden program) : frame.Keeps Hidden (onlyIf condition program) :=
  keeps.ite (Keeps.pure ())

theorem Keeps.visible : frame.Keeps Hidden (visible : Program ε σ ρ σ) :=
  fun state => Wp.visible (frame.refl state)

theorem Keeps.remembered : frame.Keeps Hidden (remembered : Program ε σ ρ ρ) :=
  fun state => Wp.remembered fun _ _ => frame.refl state

theorem Keeps.remember {update : ρ → ρ} (kept : ∀ memo, Hidden memo → Hidden (update memo)) :
    frame.Keeps Hidden (remember update : Program ε σ ρ Unit) :=
  fun state => Wp.remember kept (frame.refl state)

theorem Keeps.change {update : σ → σ} (kept : ∀ state, frame.Rel state (update state)) :
    frame.Keeps Hidden (change update : Program ε σ ρ Unit) :=
  fun state => Wp.change (kept state)

theorem Keeps.forUp {body : Nat → Program ε σ ρ Unit} (keeps : ∀ index, frame.Keeps Hidden (body index))
    (count start : Nat) : frame.Keeps Hidden (forUp body count start) := by
  induction count generalizing start with
  | zero => exact Keeps.pure ()
  | succ count ih => exact (keeps start).bind fun _ => ih (start + 1)

end Frame

end Xv6Dedup
