import Mathlib.Data.BitVec
import Xv6Dedup.Base.Bytes

/-!
# The table of processors

`mpinit` walks the entries of the MP configuration table. It does not move past an
entry of unknown type, and it counts processors without looking at the size of `cpus`.
-/

set_option autoImplicit false

namespace Xv6Dedup.Boot

abbrev NCPU : Nat := 8

/-- The bytes of memory from the start of `struct mpconf` on. -/
abbrev Conf := Nat → Byte

def Conf.length (conf : Conf) : Nat := (conf 4).toNat + 256 * (conf 5).toNat

def sum (conf : Conf) (len : Nat) : Byte := ((List.range len).map conf).sum

/-- Whether `mpconfig` accepts the table it has found. -/
def mpconfig (conf : Conf) : Bool :=
  [conf 0, conf 1, conf 2, conf 3] = [80, 67, 77, 80] ∧ (conf 6 = 1 ∨ conf 6 = 4) ∧ sum conf conf.length = 0

/-- The known types of entries. -/
inductive Kind where
  | MPPROC | MPBUS | MPIOAPIC | MPIOINTR | MPLINTR
  deriving DecidableEq

def kind (type : Byte) : Option Kind :=
  [.MPPROC, .MPBUS, .MPIOAPIC, .MPIOINTR, .MPLINTR][type.toNat]?

def Kind.size : Kind → Nat
  | .MPPROC => 20
  | _ => 8

structure Walk where
  /-- The cursor, after the header at first. -/
  p : Nat := 44
  ncpu : Nat := 0
  ismp : Bool := true
  /-- The index of `bcpu` in `cpus`. -/
  bcpu : Nat := 0
  ioapicid : Byte := 0
  /-- The indices at which `cpus` is stored to. -/
  stores : List Nat := []
  /-- The entries read. -/
  reads : List (Nat × Option Kind) := []

/-- One round of the loop of `mpinit`. -/
def Walk.step (conf : Conf) (before : Walk) : Walk :=
  let walk := { before with reads := before.reads ++ [(before.p, kind (conf before.p))] }
  match kind (conf walk.p) with
  | some .MPPROC => { walk with
      ismp := walk.ismp && walk.ncpu == (conf (walk.p + 1)).toNat
      bcpu := if conf (walk.p + 3) &&& 2 ≠ 0 then walk.ncpu else walk.bcpu
      stores := walk.stores ++ [walk.ncpu]
      ncpu := walk.ncpu + 1
      p := walk.p + Kind.MPPROC.size }
  | some .MPIOAPIC => { walk with ioapicid := conf (walk.p + 1), p := walk.p + Kind.MPIOAPIC.size }
  | some kind => { walk with p := walk.p + kind.size }
  -- the cursor stays
  | none => { walk with ismp := false }

/-- The loop of `mpinit`, if it ends within `fuel` rounds. -/
def Walk.loop (conf : Conf) : (fuel : Nat) → Walk → Option Walk
  | 0, _ => none
  | fuel + 1, walk => if walk.p < conf.length then loop conf fuel (walk.step conf) else some walk

/-- Without `ismp` there is one processor. -/
def Walk.finish (walk : Walk) : Walk :=
  if walk.ismp then walk else { walk with ncpu := 1, ioapicid := 0 }

def mpinit (conf : Conf) (fuel : Nat) : Option Walk := (Walk.loop conf fuel {}).map Walk.finish

/-- The entries from `p` on, up to the first of unknown type. -/
def entriesFrom (conf : Conf) : (fuel p : Nat) → List (Nat × Option Kind)
  | 0, _ => []
  | fuel + 1, p =>
    if p < conf.length then
      match kind (conf p) with
      | none => [(p, none)]
      | some known => (p, some known) :: entriesFrom conf fuel (p + known.size)
    else []

def Conf.entries (conf : Conf) : List (Nat × Option Kind) := entriesFrom conf conf.length 44

/-- The walk ends, with one processor if there is an entry of unknown type. -/
def Ends (conf : Conf) : Prop :=
  ∃ fuel last, mpinit conf fuel = some last ∧ ((∃ entry ∈ conf.entries, entry.2 = none) → last.ncpu = 1)

structure Safe (conf : Conf) (last : Walk) : Prop where
  stores : ∀ index ∈ last.stores, index < NCPU
  reads : ∀ entry ∈ last.reads, ∀ known ∈ entry.2, entry.1 + known.size ≤ conf.length
  cpus : last.ismp = true → 1 ≤ last.ncpu ∧ last.ncpu ≤ NCPU ∧ last.bcpu < last.ncpu

def cpusIn (entries : List (Nat × Option Kind)) : Nat := entries.countP (·.2 = some .MPPROC)

/-- The processors among the entries read have been counted. -/
structure Counted (walk : Walk) : Prop where
  ncpu : walk.ncpu = cpusIn walk.reads
  stores : walk.stores = List.range walk.ncpu
  bcpu : walk.bcpu = 0 ∨ walk.bcpu < walk.ncpu
  ismp : walk.ncpu = 0 → walk.ismp = true

section Mp

variable {conf : Conf} {walk : Walk} {fuel : Nat}

theorem step_known {known : Kind} (is : kind (conf walk.p) = some known) :
    (walk.step conf).p = walk.p + known.size ∧ (walk.step conf).reads = walk.reads ++ [(walk.p, some known)] ∧
      (Counted walk → Counted (walk.step conf)) := by
  unfold Walk.step
  simp only [is]
  cases known with
  | MPPROC =>
    refine ⟨rfl, rfl, fun counted => ⟨?_, ?_, ?_, nofun⟩⟩
    · simp [cpusIn, counted.ncpu]
    · simp [counted.stores, List.range_succ]
    · dsimp only
      split
      · exact .inr (Nat.lt_succ_self _)
      · exact counted.bcpu.imp id Nat.lt_succ_of_lt
  | _ =>
    refine ⟨rfl, rfl, fun counted => ⟨?_, counted.stores, counted.bcpu, counted.ismp⟩⟩
    simp [cpusIn, counted.ncpu]

/-- A table of known entries is walked to its end. -/
theorem loop_known (enough : conf.length ≤ walk.p + fuel) (counted : Counted walk)
    (known : ∀ entry ∈ entriesFrom conf fuel walk.p, entry.2.isSome) :
    ∃ last, Walk.loop conf (fuel + 1) walk = some last ∧ Counted last ∧
      last.reads = walk.reads ++ entriesFrom conf fuel walk.p := by
  induction fuel generalizing walk with
  | zero => exact ⟨walk, if_neg (by omega), counted, (List.append_nil _).symm⟩
  | succ fuel ih =>
    unfold entriesFrom at known ⊢
    by_cases inside : walk.p < conf.length
    · rw [Walk.loop]
      cases is : kind (conf walk.p) with
      | none => simp [inside, is] at known
      | some found =>
        obtain ⟨moved, reads, counts⟩ := step_known is
        have positive : 0 < found.size := by cases found <;> decide
        simp only [inside, is, if_true, ← moved, List.forall_mem_cons] at known ⊢
        obtain ⟨last, ran, after, rest⟩ := ih (by omega) (counts counted) known.2
        exact ⟨last, ran, after, by rw [rest, reads, List.append_assoc, List.singleton_append]⟩
    · rw [if_neg inside]
      exact ⟨walk, if_neg inside, counted, (List.append_nil _).symm⟩

theorem loop_stuck (inside : walk.p < conf.length) (unknown : kind (conf walk.p) = none) (rounds : Nat) :
    Walk.loop conf rounds walk = none := by
  induction rounds generalizing walk with
  | zero => rfl
  | succ rounds ih =>
    have stays : (walk.step conf).p = walk.p := by
      simp only [Walk.step, unknown]
    rw [Walk.loop, if_pos inside]
    exact ih (stays ▸ inside) (stays ▸ unknown)

theorem loop_unknown {entry : Nat × Option Kind} (member : entry ∈ entriesFrom conf fuel walk.p)
    (unknown : entry.2 = none) (rounds : Nat) : Walk.loop conf rounds walk = none := by
  induction fuel generalizing walk rounds with
  | zero => cases member
  | succ fuel ih =>
    unfold entriesFrom at member
    by_cases inside : walk.p < conf.length
    · cases is : kind (conf walk.p) with
      | none => exact loop_stuck inside is rounds
      | some found =>
        simp only [inside, is, if_true, List.mem_cons, ← (step_known is).1] at member
        cases rounds with
        | zero => rfl
        | succ rounds =>
          rw [Walk.loop, if_pos inside]
          refine ih (member.resolve_left fun first => ?_) rounds
          rw [first] at unknown
          cases unknown
    · rw [if_neg inside] at member
      cases member

theorem mpinit_known (known : ∀ entry ∈ conf.entries, entry.2.isSome) :
    ∃ fuel walk, mpinit conf fuel = some walk.finish ∧ Counted walk ∧ walk.reads = conf.entries := by
  obtain ⟨walk, ran, after⟩ := @loop_known conf {} conf.length (by omega) ⟨rfl, rfl, .inl rfl, fun _ => rfl⟩ known
  exact ⟨_, walk, by rw [mpinit, ran]; rfl, after⟩

theorem mpinit_ends_iff (conf : Conf) : Ends conf ↔ ∀ entry ∈ conf.entries, entry.2.isSome := by
  constructor
  · rintro ⟨fuel, last, ran, _⟩ entry member
    rw [Option.isSome_iff_ne_none]
    intro unknown
    rw [mpinit, loop_unknown member unknown] at ran
    cases ran
  · intro known
    obtain ⟨fuel, walk, ran, _⟩ := mpinit_known known
    refine ⟨fuel, _, ran, fun ⟨entry, member, unknown⟩ => ?_⟩
    exact absurd (known entry member) (by simp [unknown])

/-- A table that `mpconfig` accepts, with one entry of type 5. -/
theorem mpinit_stays : ∃ conf, mpconfig conf = true ∧ ¬ Ends conf := by
  let conf : Conf := fun p => if p = 44 then 5 else [80, 67, 77, 80, 45, 0, 1, 157].getD p 0
  have member : (44, none) ∈ entriesFrom conf 1 44 := by decide +kernel
  refine ⟨conf, by decide +kernel, fun ⟨fuel, last, ran, _⟩ => ?_⟩
  rw [mpinit, @loop_unknown conf {} 1 _ member rfl] at ran
  cases ran

theorem safe_finish : Safe conf walk.finish ↔ Safe conf walk := by
  unfold Walk.finish
  split
  · rfl
  · rename_i alone
    exact ⟨fun safe => ⟨safe.stores, safe.reads, (absurd · alone)⟩,
      fun safe => ⟨safe.stores, safe.reads, (absurd · alone)⟩⟩

theorem mpinit_safe_iff (known : ∀ entry ∈ conf.entries, entry.2.isSome) :
    ∃ fuel last, mpinit conf fuel = some last ∧ (Safe conf last ↔
      1 ≤ cpusIn conf.entries ∧ cpusIn conf.entries ≤ NCPU ∧
        ∀ entry ∈ conf.entries, ∀ known ∈ entry.2, entry.1 + known.size ≤ conf.length) := by
  obtain ⟨fuel, walk, ran, ⟨ncpu, stores, bcpu, ismp⟩, reads⟩ := mpinit_known known
  rw [← reads, ← ncpu]
  refine ⟨fuel, _, ran, safe_finish.trans ⟨?_, ?_⟩⟩
  · rintro ⟨stored, inside, cpus⟩
    refine ⟨?_, ?_, inside⟩
    · -- without processors `ismp` stays set
      by_contra none
      have counted := cpus (ismp (by omega))
      omega
    · by_contra many
      exact Nat.lt_irrefl _ (stored NCPU (stores ▸ List.mem_range.mpr (by omega)))
  · rintro ⟨cpus, few, whole⟩
    refine ⟨fun index stored => ?_, whole, fun _ => ⟨cpus, few, by omega⟩⟩
    exact (List.mem_range.mp (stores ▸ stored)).trans_le few

/-- A table that `mpconfig` accepts, with processors only. -/
def processors (length checksum : Byte) : Conf := fun p => [80, 67, 77, 80, length, 0, 1, checksum].getD p 0

theorem mpinit_safe_one : mpconfig (processors 64 143) = true ∧
    ∃ fuel last, mpinit (processors 64 143) fuel = some last ∧ Safe (processors 64 143) last := by
  obtain ⟨fuel, last, ran, safe⟩ := @mpinit_safe_iff (processors 64 143) (by decide +kernel)
  exact ⟨by decide +kernel, fuel, last, ran, safe.mpr (by decide +kernel)⟩

/-- With nine processors, `mpinit` stores to `cpus[8]`. -/
theorem mpinit_overruns : mpconfig (processors 224 239) = true ∧
    (∀ entry ∈ (processors 224 239).entries, entry.2.isSome) ∧
    ∃ fuel last, mpinit (processors 224 239) fuel = some last ∧ NCPU ∈ last.stores ∧ ¬ Safe (processors 224 239) last := by
  have ran : ((mpinit (processors 224 239) 10).map (·.stores)) = some (List.range 9) := by decide +kernel
  obtain ⟨last, ended, stores⟩ := Option.map_eq_some_iff.mp ran
  have stored : NCPU ∈ last.stores := stores ▸ (by decide)
  exact ⟨by decide +kernel, by decide +kernel, 10, last, ended, stored,
    fun safe => Nat.lt_irrefl _ (safe.stores _ stored)⟩

end Mp

end Xv6Dedup.Boot
