import Mathlib.Tactic.Common

/-!
# Programs over a visible and a hidden state

A program reads and changes a pair of states and either returns or stops with
a reason, keeping the state reached. The hidden part holds what a caller may
not depend on; `Wp` quantifies over it, so that specifications only mention
the visible part.
-/

set_option autoImplicit false

namespace Xv6Dedup

/-- A program with visible state `σ`, hidden state `ρ` and stopping reason `ε`. -/
abbrev Program (ε σ ρ α : Type) := EStateM ε (σ × ρ) α

namespace Program

variable {ε σ ρ α β : Type}

/-- Read the visible state. -/
def visible : Program ε σ ρ σ := fun state => .ok state.1 state

/-- Change the visible state. -/
def change (update : σ → σ) : Program ε σ ρ Unit :=
  fun state => .ok () (update state.1, state.2)

/-- Read the hidden state. -/
def remembered : Program ε σ ρ ρ := fun state => .ok state.2 state

/-- Change the hidden state. -/
def remember (update : ρ → ρ) : Program ε σ ρ Unit :=
  fun state => .ok () (state.1, update state.2)

/-- Run `program` when `condition` holds. -/
def onlyIf (condition : Prop) [Decidable condition] (program : Program ε σ ρ Unit) : Program ε σ ρ Unit :=
  if condition then program else pure ()

/-- Run `body` at `start`, `start + 1`, … , `count` times. -/
def forUp (body : Nat → Program ε σ ρ Unit) : (count start : Nat) → Program ε σ ρ Unit
  | 0, _ => pure ()
  | count + 1, start => do
    body start
    forUp body count (start + 1)

/-- Run `body` at `start + count - 1`, … , `start` until it answers `true`. -/
def searchDown (body : Nat → Program ε σ ρ Bool) (start : Nat) : (count : Nat) → Program ε σ ρ Bool
  | 0 => pure false
  | count + 1 => do
    let found ← body (start + count)
    if found then pure true else searchDown body start count

/-- The value of a run that returned. -/
def returned {state : Type} : EStateM.Result ε state α → Option α
  | .ok value _ => some value
  | .error _ _ => none

/-- The visible state that a run has come to. -/
def reached : EStateM.Result ε (σ × ρ) α → σ
  | .ok _ next => next.1
  | .error _ next => next.1

theorem bind_ok {first : Program ε σ ρ α} {rest : α → Program ε σ ρ β} {state next : σ × ρ}
    {value : α} (ran : first state = .ok value next) : (first >>= rest) state = rest value next := by
  simp only [bind, EStateM.bind, ran]

end Program

open Program

section Wp

variable {ε σ ρ α β : Type} {Hidden : ρ → Prop}

/-- Started in visible state `state` and any hidden state satisfying `Hidden`,
the program returns a result and state in `Post` with `Hidden` kept, or stops
for a reason in `Stops`. -/
def Wp (Hidden : ρ → Prop) (program : Program ε σ ρ α) (state : σ)
    (Post : α → σ → Prop) (Stops : ε → σ → Prop) : Prop :=
  ∀ memo, Hidden memo →
    match program (state, memo) with
    | .ok value next => Post value next.1 ∧ Hidden next.2
    | .error reason next => Stops reason next.1

variable {state : σ} {Post : α → σ → Prop} {Stops : ε → σ → Prop}

variable {program : Program ε σ ρ α} {memo : ρ} {reason : ε} {Post' : α → σ → Prop}
  {Stops' : ε → σ → Prop} {condition : Prop}

theorem Wp.returned (correct : Wp Hidden program state Post Stops) (allowed : Hidden memo)
    {value : α} {next : σ × ρ} (ran : program (state, memo) = .ok value next) : Post value next.1 ∧ Hidden next.2 := by
  have outcome := correct memo allowed
  rw [ran] at outcome
  exact outcome

theorem Wp.stopped (correct : Wp Hidden program state Post Stops) (allowed : Hidden memo)
    {next : σ × ρ} (ran : program (state, memo) = .error reason next) : Stops reason next.1 := by
  have outcome := correct memo allowed
  rw [ran] at outcome
  exact outcome

/-- What holds of the state that a run has come to, whether it returned or not. -/
theorem Wp.reached {Holds : σ → Prop}
    (correct : Wp Hidden program state (fun _ => Holds) (fun _ => Holds)) (allowed : Hidden memo) :
    Holds (Program.reached (program (state, memo))) := by
  have outcome := correct memo allowed
  revert outcome
  cases program (state, memo) with
  | ok value next => exact And.left
  | error reason next => exact id

theorem Wp.total (correct : Wp Hidden program state Post (fun _ _ => False)) (allowed : Hidden memo) :
    ∃ value next, program (state, memo) = .ok value next ∧ Post value next.1 ∧ Hidden next.2 := by
  have outcome := correct memo allowed
  revert outcome
  cases program (state, memo) with
  | ok value next => exact fun outcome => ⟨value, next, rfl, outcome⟩
  | error reason next => exact False.elim

/-- A program whose outcome is known returns exactly the known value. -/
theorem Wp.returned_eq {expected : Option α}
    (correct : Wp Hidden program state (fun value _ => expected = some value) (fun _ _ => expected = none))
    (allowed : Hidden memo) : Program.returned (program (state, memo)) = expected := by
  have outcome := correct memo allowed
  revert outcome
  cases program (state, memo) with
  | ok value next => exact fun outcome => outcome.1.symm
  | error reason next => exact Eq.symm

theorem Wp.pure {value : α} (holds : Post value state) :
    Wp Hidden (Pure.pure value : Program ε σ ρ α) state Post Stops :=
  fun _ allowed => ⟨holds, allowed⟩

theorem Wp.throw (holds : Stops reason state) :
    Wp Hidden (MonadExcept.throw reason : Program ε σ ρ α) state Post Stops :=
  fun _ _ => holds

theorem Wp.bind {first : Program ε σ ρ β} {rest : β → Program ε σ ρ α} (correct : Wp Hidden first state
      (fun value next => Wp Hidden (rest value) next Post Stops) Stops) :
    Wp Hidden (first >>= rest) state Post Stops := by
  intro memo allowed
  have outcome := correct memo allowed
  simp only [Bind.bind, EStateM.bind]
  cases ran : first (state, memo) with
  | ok value next =>
    rw [ran] at outcome
    exact outcome.1 next.2 outcome.2
  | error reason next =>
    rw [ran] at outcome
    exact outcome

theorem Wp.mono (correct : Wp Hidden program state Post Stops)
    (weaker : ∀ value next, Post value next → Post' value next)
    (tolerated : ∀ reason next, Stops reason next → Stops' reason next) : Wp Hidden program state Post' Stops' := by
  intro memo allowed
  have outcome := correct memo allowed
  cases ran : program (state, memo) with
  | ok value next =>
    rw [ran] at outcome
    exact ⟨weaker _ _ outcome.1, outcome.2⟩
  | error reason next =>
    rw [ran] at outcome
    exact tolerated _ _ outcome

theorem Wp.post (correct : Wp Hidden program state Post Stops)
    (weaker : ∀ value next, Post value next → Post' value next) : Wp Hidden program state Post' Stops :=
  correct.mono weaker fun _ _ stopped => stopped

theorem Wp.stops (correct : Wp Hidden program state Post Stops)
    (tolerated : ∀ reason next, Stops reason next → Stops' reason next) : Wp Hidden program state Post Stops' :=
  correct.mono (fun _ _ held => held) tolerated

theorem Wp.seq {first : Program ε σ ρ β} {rest : β → Program ε σ ρ α}
    {Middle : β → σ → Prop} (firstCorrect : Wp Hidden first state Middle Stops)
    (restCorrect : ∀ value next, Middle value next → Wp Hidden (rest value) next Post Stops) :
    Wp Hidden (first >>= rest) state Post Stops :=
  Wp.bind (firstCorrect.post restCorrect)

theorem Wp.visible {Post : σ → σ → Prop} (holds : Post state state) :
    Wp Hidden (Program.visible : Program ε σ ρ σ) state Post Stops :=
  fun _ allowed => ⟨holds, allowed⟩

theorem Wp.change {update : σ → σ} {Post : Unit → σ → Prop} (holds : Post () (update state)) :
    Wp Hidden (Program.change update : Program ε σ ρ Unit) state Post Stops :=
  fun _ allowed => ⟨holds, allowed⟩

theorem Wp.remembered {Post : ρ → σ → Prop} (holds : ∀ memo, Hidden memo → Post memo state) :
    Wp Hidden (Program.remembered : Program ε σ ρ ρ) state Post Stops :=
  fun memo allowed => ⟨holds memo allowed, allowed⟩

theorem Wp.remember {update : ρ → ρ} {Post : Unit → σ → Prop}
    (kept : ∀ memo, Hidden memo → Hidden (update memo)) (holds : Post () state) :
    Wp Hidden (Program.remember update : Program ε σ ρ Unit) state Post Stops :=
  fun memo allowed => ⟨holds, kept memo allowed⟩

theorem Wp.ite [Decidable condition] {yes no : Program ε σ ρ α} (whenTrue : condition → Wp Hidden yes state Post Stops)
    (whenFalse : ¬ condition → Wp Hidden no state Post Stops) :
    Wp Hidden (if condition then yes else no) state Post Stops := by
  split
  · exact whenTrue ‹_›
  · exact whenFalse ‹_›

theorem Wp.peek {read : σ → β} {rest : β → Program ε σ ρ α} (next : Wp Hidden (rest (read state)) state Post Stops) :
    Wp Hidden ((Program.visible >>= fun state => Pure.pure (read state)) >>= rest) state Post Stops :=
  Wp.bind (Wp.bind (Wp.visible (Wp.pure next)))

theorem Wp.see {rest : σ → Program ε σ ρ α} (next : Wp Hidden (rest state) state Post Stops) :
    Wp Hidden (Program.visible >>= rest) state Post Stops :=
  Wp.bind (Wp.visible next)

theorem Wp.set {update : σ → σ} {rest : Unit → Program ε σ ρ α} (next : Wp Hidden (rest ()) (update state) Post Stops) :
    Wp Hidden (Program.change update >>= rest) state Post Stops :=
  Wp.bind (Wp.change next)

theorem Wp.guard [Decidable condition] {no : Program ε σ ρ α} (tolerated : Stops reason state)
    (passed : ¬ condition → Wp Hidden no state Post Stops) :
    Wp Hidden (if condition then MonadExcept.throw reason else no) state Post Stops :=
  Wp.ite (fun _ => Wp.throw tolerated) passed

theorem Wp.onlyIf [Decidable condition] {program : Program ε σ ρ Unit} {Post : Unit → σ → Prop}
    (whenTrue : condition → Wp Hidden program state Post Stops) (whenFalse : ¬ condition → Post () state) :
    Wp Hidden (Program.onlyIf condition program) state Post Stops :=
  Wp.ite whenTrue fun fails => Wp.pure (whenFalse fails)

theorem Wp.and (left : Wp Hidden program state Post Stops) (right : Wp Hidden program state Post' Stops') :
    Wp Hidden program state (fun value next => Post value next ∧ Post' value next)
      (fun reason next => Stops reason next ∧ Stops' reason next) := by
  intro memo allowed
  have first := left memo allowed
  have second := right memo allowed
  cases ran : program (state, memo) with
  | ok value next =>
    rw [ran] at first second
    exact ⟨⟨first.1, second.1⟩, first.2⟩
  | error reason next =>
    rw [ran] at first second
    exact ⟨first, second⟩

theorem Wp.anyhow (holds : ∀ value next, Post value next) :
    Wp (fun _ => True) program state Post (fun _ _ => True) := by
  intro memo _
  cases program (state, memo) with
  | ok value next => exact ⟨holds value next.1, trivial⟩
  | error reason next => exact trivial

/-- A program that never returns does so whatever the hidden state. -/
theorem Wp.never (never : Wp (fun _ => True) program state (fun _ _ => False) Stops) :
    Wp Hidden program state (fun _ _ => False) Stops := by
  intro memo _
  have outcome := never memo trivial
  cases ran : program (state, memo) with
  | ok value next =>
    rw [ran] at outcome
    exact outcome.1.elim
  | error reason next =>
    rw [ran] at outcome
    exact outcome

theorem Wp.forUp {body : Nat → Program ε σ ρ Unit} {count start : Nat} (Invariant : Nat → σ → Prop)
    (step : ∀ index current, start ≤ index → index < start + count → Invariant index current →
      Wp Hidden (body index) current (fun _ => Invariant (index + 1)) Stops) (initial : Invariant start state) :
    Wp Hidden (Program.forUp body count start) state (fun _ => Invariant (start + count)) Stops := by
  induction count generalizing start state with
  | zero => exact Wp.pure initial
  | succ count ih =>
    refine Wp.seq (step start state (Nat.le_refl _) (by omega) initial) ?_
    intro _ next held
    rw [show start + (count + 1) = start + 1 + count by omega]
    exact ih (fun index current lower upper =>
      step index current (by omega) (by omega)) held

/-- Invariant rule for a descending search: `Invariant index` holds when all
positions from `index` on have answered `false`. -/
theorem Wp.searchDown {body : Nat → Program ε σ ρ Bool} {start count : Nat}
    (Invariant : Nat → σ → Prop) {Post : Bool → σ → Prop}
    (step : ∀ index current, start ≤ index → index < start + count → Invariant (index + 1) current →
      Wp Hidden (body index) current (fun found next => if found then Post true next else Invariant index next) Stops)
    (initial : Invariant (start + count) state) (exhausted : ∀ next, Invariant start next → Post false next) :
    Wp Hidden (Program.searchDown body start count) state Post Stops := by
  induction count generalizing state with
  | zero => exact Wp.pure (exhausted _ initial)
  | succ count ih =>
    refine Wp.seq (step (start + count) state (Nat.le_add_right _ _) (by omega) initial) ?_
    intro found next outcome
    cases found with
    | true => exact Wp.pure outcome
    | false =>
      exact ih (fun index current lower upper => step index current lower (by omega)) outcome

end Wp

-- Otherwise a tactic that looks for binders in a goal runs the program.
attribute [irreducible] Wp

end Xv6Dedup
