import Xv6Dedup.Paging.Freeing

/-!
# What growing and copying do

The loops of `allocuvm` and `copyuvm` are rounds that map one page each, and end
with the last page or with a `kalloc` that fails.
-/

set_option autoImplicit false

namespace Xv6Dedup.Paging

open Function Program

/-- Rounds of a loop over pages, from one page to another. -/
inductive Rounds (Round : Nat → Vm → Vm → Prop) : (page : Nat) → Vm → (last : Nat) → Vm → Prop
  | refl (page : Nat) (vm : Vm) : Rounds Round page vm page vm
  | step {page last : Nat} {vm middle next : Vm} (first : Round page vm middle)
      (rest : Rounds Round (page + 1) middle last next) : Rounds Round page vm last next

abbrev userEntry (frame : Nat) : Entry := { frame := frame, write := true, user := true }

def Vm.grant (vm : Vm) (mapped : Bool) (d page frame : Nat) : Vm :=
  if mapped then { vm with grants := (d, page, frame) :: vm.grants } else vm

inductive GrowRound (Hidden : List Bool → Prop) (d page : Nat) (vm : Vm) : Vm → Prop
  | intro {frame : Nat} {rest : List Nat} {mapped : Bool} {middle : Vm} (pool : vm.free = frame :: rest)
      (enters : Enters Hidden d page (userEntry frame)
        (Vm.fill { vm with free := rest } frame fun _ => 0) mapped middle) :
      GrowRound Hidden d page vm (middle.grant mapped d page frame)

inductive Grows (Hidden : List Bool → Prop) (d oldsz newsz page last : Nat) (vm : Vm) :
    Nat → Vm → Prop
  | done {next : Vm} (rounds : Rounds (GrowRound Hidden d) page vm last next) :
      Grows Hidden d oldsz newsz page last vm newsz next
  | short {stop : Nat} {middle : Vm} (before : stop < last)
      (rounds : Rounds (GrowRound Hidden d) page vm stop middle) (short : Short Hidden middle) :
      Grows Hidden d oldsz newsz page last vm 0 (Vm.dealloc { middle with starved := true } d newsz oldsz)

inductive GrowsStop (Hidden : List Bool → Prop) (d oldsz newsz page last : Nat) (vm : Vm) (reason : Stop) :
    Vm → Prop
  | enter {stop frame : Nat} {rest : List Nat} {middle next : Vm} (before : stop < last)
      (rounds : Rounds (GrowRound Hidden d) page vm stop middle) (pool : middle.free = frame :: rest)
      (halts : Halts (middle.Refuses d stop) (Vm.fill { middle with free := rest } frame fun _ => 0)
        reason next) : GrowsStop Hidden d oldsz newsz page last vm reason next
  | free {stop : Nat} {middle next : Vm} (before : stop < last)
      (rounds : Rounds (GrowRound Hidden d) page vm stop middle) (short : Short Hidden middle)
      (halts : Halts (¬ middle.Proper d (Part.Between (pageUp oldsz) newsz)) { middle with starved := true } reason next) :
      GrowsStop Hidden d oldsz newsz page last vm reason next

/-- The outcomes of `allocuvm`. -/
inductive Expands (Hidden : List Bool → Prop) (d oldsz newsz : Nat) (vm : Vm) : Nat → Vm → Prop
  | large (above : KERNBASE ≤ newsz) : Expands Hidden d oldsz newsz vm 0 vm
  | less (below : newsz < KERNBASE) (less : newsz < oldsz) : Expands Hidden d oldsz newsz vm oldsz vm
  | more {sz : Nat} {next : Vm} (below : newsz < KERNBASE) (more : oldsz ≤ newsz)
      (grows : Grows Hidden d oldsz newsz (pageUp oldsz) (pageUp newsz) vm sz next) :
      Expands Hidden d oldsz newsz vm sz next

inductive CopyRound (Hidden : List Bool → Prop) (pgdir d page : Nat) (vm : Vm) : Vm → Prop
  | intro {frame : Nat} {rest : List Nat} {dir : Pgdir} {entry : Entry} {middle : Vm}
      (present : vm.dirs pgdir = some dir) (source : dir.entry page = some entry)
      (pool : vm.free = frame :: rest)
      (enters : Enters Hidden d page (userEntry frame)
        (Vm.fill { vm with free := rest } frame (vm.mem entry.frame)) true middle) :
      CopyRound Hidden pgdir d page vm middle

inductive Copies (Hidden : List Bool → Prop) (pgdir d page last : Nat) (vm : Vm) : Bool → Vm → Prop
  | done {next : Vm} (rounds : Rounds (CopyRound Hidden pgdir d) page vm last next) :
      Copies Hidden pgdir d page last vm true next
  | short {stop : Nat} {middle : Vm} (before : stop < last)
      (rounds : Rounds (CopyRound Hidden pgdir d) page vm stop middle) (short : Short Hidden middle) :
      Copies Hidden pgdir d page last vm false { middle with starved := true }
  | lost {stop frame : Nat} {rest : List Nat} {bytes : Nat → Byte} {middle next : Vm}
      (before : stop < last) (rounds : Rounds (CopyRound Hidden pgdir d) page vm stop middle)
      (pool : middle.free = frame :: rest)
      (enters : Enters Hidden d stop (userEntry frame) (Vm.fill { middle with free := rest } frame bytes)
        false next) : Copies Hidden pgdir d page last vm false next

/-- The source of a copy is not mapped: why the loop stops. -/
inductive Unmapped (vm : Vm) (d page : Nat) : Stop → Prop
  | gone (missing : vm.dirs d = none) : Unmapped vm d page (.undefined "page directory")
  | table {dir : Pgdir} (present : vm.dirs d = some dir) (missing : dir.table (page / NPTENTRIES) = none) :
      Unmapped vm d page (.panic "copyuvm: pte should exist")
  | entry {dir : Pgdir} (present : vm.dirs d = some dir) (missing : dir.entry page = none) :
      Unmapped vm d page (.panic "copyuvm: page not present")

inductive CopiesStop (Hidden : List Bool → Prop) (pgdir d page last : Nat) (vm : Vm) (reason : Stop) :
    Vm → Prop
  | source {stop : Nat} {middle : Vm} (before : stop < last)
      (rounds : Rounds (CopyRound Hidden pgdir d) page vm stop middle)
      (unmapped : Unmapped middle pgdir stop reason) :
      CopiesStop Hidden pgdir d page last vm reason middle
  | enter {stop frame : Nat} {rest : List Nat} {bytes : Nat → Byte} {middle next : Vm}
      (before : stop < last) (rounds : Rounds (CopyRound Hidden pgdir d) page vm stop middle)
      (pool : middle.free = frame :: rest)
      (halts : Halts (middle.Refuses d stop) (Vm.fill { middle with free := rest } frame bytes)
        reason next) : CopiesStop Hidden pgdir d page last vm reason next

/-- The outcomes of `copyuvm`. -/
inductive Duplicates (Hidden : List Bool → Prop) (pgdir sz : Nat) (vm : Vm) : Option Nat → Vm → Prop
  | unmade {next : Vm} (setsUp : SetsUp Hidden vm none next) : Duplicates Hidden pgdir sz vm none next
  | done {d : Nat} {middle next : Vm} (setsUp : SetsUp Hidden vm (some d) middle)
      (copies : Copies Hidden pgdir d 0 (pageUp sz) middle true next) :
      Duplicates Hidden pgdir sz vm (some d) next
  | undone {d : Nat} {middle last : Vm} {dir : Pgdir} (setsUp : SetsUp Hidden vm (some d) middle)
      (copies : Copies Hidden pgdir d 0 (pageUp sz) middle false last)
      (present : last.dirs d = some dir) : Duplicates Hidden pgdir sz vm none (last.discard d dir)

inductive DuplicatesStop (Hidden : List Bool → Prop) (pgdir sz : Nat) (vm : Vm) (reason : Stop)
    (next : Vm) : Prop
  | copy {d : Nat} {middle : Vm} (setsUp : SetsUp Hidden vm (some d) middle)
      (stops : CopiesStop Hidden pgdir d 0 (pageUp sz) middle reason next) :
      DuplicatesStop Hidden pgdir sz vm reason next
  | free {d : Nat} {middle last : Vm} (setsUp : SetsUp Hidden vm (some d) middle)
      (copies : Copies Hidden pgdir d 0 (pageUp sz) middle false last)
      (halts : Halts (¬ last.Proper d fun _ => True) last reason next) : DuplicatesStop Hidden pgdir sz vm reason next

section Rounds

variable {Hidden : List Bool → Prop} {vm next : Vm} {d page last oldsz newsz sz : Nat}
  {Round : Nat → Vm → Vm → Prop}

theorem Rounds.le (rounds : Rounds Round page vm last next) : page ≤ last := by
  induction rounds with
  | refl => exact Nat.le_refl _
  | step _ _ ih => exact Nat.le_of_succ_le ih

/-- What every round keeps holds after the rounds. -/
theorem Rounds.keeps (Holds : Nat → Vm → Prop) (rounds : Rounds Round page vm last next)
    (each : ∀ page vm middle, page < last → Round page vm middle → Holds page vm →
      Holds (page + 1) middle) (before : Holds page vm) : Holds last next := by
  induction rounds with
  | refl => exact before
  | step first rest ih => exact ih each (each _ _ _ rest.le first before)

variable [Supply Hidden]

theorem copyFrom_wp {pgdir : Nat} (count : Nat) {page : Nat} :
    Wp Hidden (copyFrom pgdir d count page) vm (Copies Hidden pgdir d page (page + count) vm)
      (CopiesStop Hidden pgdir d page (page + count) vm) := by
  induction count generalizing vm page with
  | zero => exact Wp.pure (.done (.refl page vm))
  | succ count ih =>
    have inside : page < page + (count + 1) := by omega
    have nothing {reason : Stop} (unmapped : Unmapped vm pgdir page reason) :
        CopiesStop Hidden pgdir d page (page + (count + 1)) vm reason vm :=
      .source inside (.refl page vm) unmapped
    refine lookup_wp (fun gone => nothing (.gone gone)) (fun dir present missing =>
      Wp.throw (nothing (.table present missing))) fun dir present table => ?_
    cases source : dir.entry page with
    | none => exact Wp.throw (nothing (.entry present source))
    | some entry =>
      refine Wp.seq kalloc_wp fun result middle allocs => ?_
      cases allocs with
      | none short => exact Wp.pure (.short inside (.refl page vm) short)
      | some pool =>
        refine Wp.set (Wp.seq (mappage_wp.stops fun _ _ halts =>
          .enter inside (.refl page vm) pool halts) fun mapped middle enters => ?_)
        cases mapped with
        | false => exact Wp.ite nofun fun _ => Wp.pure (.lost inside (.refl page vm) pool enters)
        | true =>
          have round : CopyRound Hidden pgdir d page vm middle := .intro present source pool enters
          refine Wp.ite (fun _ => ?_) fun wrong => absurd rfl wrong
          rw [show page + (count + 1) = page + 1 + count by omega]
          refine ih.mono (fun sz next copies => ?_) fun reason next stops => ?_
          · cases copies with
            | done rounds => exact .done (.step round rounds)
            | short before rounds short => exact .short before (.step round rounds) short
            | lost before rounds pool enters => exact .lost before (.step round rounds) pool enters
          · cases stops with
            | source before rounds unmapped => exact .source before (.step round rounds) unmapped
            | enter before rounds pool halts => exact .enter before (.step round rounds) pool halts

theorem copyuvm_wp {pgdir : Nat} : Wp Hidden (copyuvm pgdir sz) vm (Duplicates Hidden pgdir sz vm)
    (DuplicatesStop Hidden pgdir sz vm) := by
  refine Wp.seq setupkvm_wp fun made middle setsUp => ?_
  cases made with
  | none => exact Wp.pure (.unmade setsUp)
  | some d =>
    have copies := @copyFrom_wp Hidden middle d _ pgdir (pageUp sz) 0
    rw [Nat.zero_add] at copies
    refine Wp.seq (copies.stops fun _ _ => .copy setsUp) fun copied last copies => ?_
    cases copied with
    | true => exact Wp.ite (fun _ => Wp.pure (.done setsUp copies)) fun wrong => absurd rfl wrong
    | false =>
      refine Wp.ite nofun fun _ => Wp.seq (freevm_wp.stops fun _ _ =>
        .free setsUp copies) ?_
      rintro _ _ ⟨dir, present, rfl⟩
      exact Wp.pure (.undone setsUp copies present)

end Rounds

end Xv6Dedup.Paging
