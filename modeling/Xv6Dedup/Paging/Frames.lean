import Xv6Dedup.Base.Ownership
import Xv6Dedup.Paging.Rounds

/-!
# Frames are not shared

Every frame is free, lost, or occupies one place: a page directory, a page
table, a user page, a kernel stack or a pipe. All calls keep this, whichever
calls of `kalloc` fail.
-/

set_option autoImplicit false

namespace Xv6Dedup.Paging

open Function Program

inductive Place where
  | inside (d : Nat) (part : Part)
  | stack (pid : Fin NPROC)
  | pipe (p : Nat)
  deriving DecidableEq

def Vm.occupant (vm : Vm) : Place → Option Nat
  | .inside d part => (vm.dirs d).bind fun dir => dir.frameAt d part
  | .stack pid => (vm.tasks pid).map (·.kstack)
  | .pipe p => if p ∈ vm.pipes then some p else none

/-- No frame is used twice while a call holds the frames `loose`. -/
def Vm.Owns (vm : Vm) (loose : List Nat) : Prop := Owned vm.occupant vm.free loose

/-- What holds if the program returns, whichever calls of `kalloc` fail. -/
abbrev Yields {α : Type} (program : VmM α) (vm : Vm) (Post : α → Vm → Prop) : Prop :=
  Wp (fun _ : List Bool => True) program vm Post (fun _ _ => True)

/-- Only the directory `d` may differ, and frames are taken and freed. -/
structure Beside (d : Nat) (vm next : Vm) : Prop where
  link : next.link = vm.link
  tasks : next.tasks = vm.tasks
  pipes : next.pipes = vm.pipes
  dirs : ∀ other, other ≠ d → next.dirs other = vm.dirs other
  starved : vm.starved = true → next.starved = true

theorem Beside.refl (d : Nat) (vm : Vm) : Beside d vm vm := ⟨rfl, rfl, rfl, fun _ _ => rfl, id⟩

theorem Beside.trans {d : Nat} {vm middle next : Vm} (first : Beside d vm middle)
    (second : Beside d middle next) : Beside d vm next where
  link := second.link.trans first.link
  tasks := second.tasks.trans first.tasks
  pipes := second.pipes.trans first.pipes
  dirs other apart := (second.dirs other apart).trans (first.dirs other apart)
  starved := second.starved ∘ first.starved

theorem Beside.setDir (d : Nat) (vm : Vm) (dir : Option Pgdir) : Beside d vm (vm.setDir d dir) :=
  ⟨rfl, rfl, rfl, fun _ apart => update_of_ne apart _ _, id⟩

/-- Frames are taken from the free list, whose bytes may change, and more pages granted. -/
structure Draws (d : Nat) (vm next : Vm) : Prop where
  beside : Beside d vm next
  free : next.free <:+ vm.free
  mem : ∀ frame, frame ∉ vm.free → next.mem frame = vm.mem frame
  stores : next.stores = vm.stores
  grants : vm.grants <:+ next.grants

theorem Draws.refl (d : Nat) (vm : Vm) : Draws d vm vm :=
  ⟨Beside.refl d vm, List.suffix_refl _, fun _ _ => rfl, rfl, List.suffix_refl _⟩

theorem Draws.trans {d : Nat} {vm middle next : Vm} (first : Draws d vm middle)
    (second : Draws d middle next) : Draws d vm next where
  beside := first.beside.trans second.beside
  free := second.free.trans first.free
  mem frame used := (second.mem frame fun member => used (first.free.subset member)).trans (first.mem frame used)
  stores := second.stores.trans first.stores
  grants := first.grants.trans second.grants

section Frames

variable {vm next : Vm} {loose : List Nat} {d page frame : Nat} {dir : Pgdir}

private theorem occupant_setDir {changed : Option Pgdir} {place : Place} {x : Nat}
    (held : (vm.setDir d changed).occupant place = some x) :
    (∃ part dir, place = .inside d part ∧ changed = some dir ∧ dir.frameAt d part = some x) ∨
      (∀ part, place ≠ .inside d part) ∧ vm.occupant place = some x := by
  cases place with
  | inside e part =>
    by_cases same : e = d
    · subst same
      simp only [Vm.occupant, setDir_same] at held
      obtain ⟨dir, present, found⟩ := Option.bind_eq_some_iff.mp held
      exact .inl ⟨part, dir, rfl, present, found⟩
    · refine .inr ⟨fun other => ?_, ?_⟩
      · simp [same]
      · simpa only [Vm.occupant, setDir_other same] using held
  | stack pid | pipe p => exact .inr ⟨fun _ => nofun, held⟩

theorem occupant_inside (present : vm.dirs d = some dir) (part : Part) :
    vm.occupant (.inside d part) = dir.frameAt d part := by
  simp only [Vm.occupant, present, Option.bind_some]

variable {changed : Pgdir} {entry : Entry} {oldsz newsz sz last : Nat} {mapped : Bool}
  {result : Option Nat} {Hidden : List Bool → Prop}

theorem Vm.Owns.shrink (owns : vm.Owns loose) (present : vm.dirs d = some dir)
    (less : ∀ part x, changed.frameAt d part = some x → dir.frameAt d part = some x) :
    (vm.setDir d (some changed)).Owns loose := by
  refine Owned.forget owns fun place x held => ?_
  rcases occupant_setDir held with ⟨part, _, rfl, same, found⟩ | ⟨_, elsewhere⟩
  · cases same
    rw [occupant_inside present]
    exact less part x found
  · exact elsewhere

theorem Vm.Owns.occupy (owns : vm.Owns (frame :: loose)) (present : vm.dirs d = some dir)
    (part : Part) (here : ∀ x, changed.frameAt d part = some x → x = frame)
    (less : ∀ other x, other ≠ part → changed.frameAt d other = some x → dir.frameAt d other = some x) :
    (vm.setDir d (some changed)).Owns loose := by
  refine Owned.forget (Owned.occupy owns (.inside d part)) fun place x held => ?_
  rcases occupant_setDir held with ⟨other, _, rfl, same, found⟩ | ⟨apart, elsewhere⟩
  · cases same
    by_cases same : other = part
    · subst same
      rw [update_self, here x found]
    · rw [update_of_ne (by simpa using same), occupant_inside present]
      exact less other x same found
  · rw [update_of_ne (apart part)]
    exact elsewhere

theorem Vm.Owns.create (owns : vm.Owns (d :: loose)) : (vm.setDir d (some {})).Owns loose := by
  refine Owned.forget (Owned.occupy owns (.inside d .self)) fun place x held => ?_
  rcases occupant_setDir held with ⟨part, _, rfl, same, found⟩ | ⟨apart, elsewhere⟩
  · cases same
    cases part with
    | self => rwa [update_self]
    | table index => cases found
    | page page =>
      simp only [Pgdir.frameAt] at found
      split at found <;> cases found
  · rw [update_of_ne (apart .self)]
    exact elsewhere

theorem Vm.Owns.fresh (owns : vm.Owns (d :: loose)) : vm.dirs d = none := by
  cases present : vm.dirs d with
  | none => rfl
  | some dir =>
    exact absurd List.mem_cons_self (owns.apart _ d (occupant_inside present .self))

/-! ## Taking -/

theorem frameAt_addTable {index x : Nat} {other : Part} (apart : other ≠ .table index)
    (found : (dir.addTable index frame).frameAt d other = some x) : dir.frameAt d other = some x := by
  cases other with
  | self => exact found
  | table i =>
    have different : i ≠ index := fun same => apart (by rw [same])
    simpa only [Pgdir.frameAt, Pgdir.addTable, update_of_ne different] using found
  | page page =>
    simp only [Pgdir.frameAt, Pgdir.addTable] at found ⊢
    split at found
    · rename_i low
      rw [if_pos low]
      split at found
      · cases found
      · exact found
    · cases found

theorem frameAt_setEntry {entry : Option Entry} {other : Part} (apart : other ≠ .page page) :
    (dir.setEntry page entry).frameAt d other = dir.frameAt d other := by
  cases other with
  | self => rfl
  | table index => rfl
  | page number =>
    have different : number ≠ page := fun same => apart (by rw [same])
    simp only [Pgdir.frameAt, Pgdir.setEntry, update_of_ne different]

variable {rest : List Nat}

theorem Vm.Owns.take (owns : vm.Owns loose) (pool : vm.free = frame :: rest) :
    Vm.Owns { vm with free := rest } (frame :: loose) := by
  unfold Vm.Owns at owns
  rw [pool] at owns
  exact Owned.take owns

theorem Tabled.owns {index : Nat} (tabled : Tabled d index vm dir next) (owns : vm.Owns loose) : next.Owns loose := by
  cases tabled with
  | old => exact owns
  | new present _ pool =>
    refine (owns.take pool).occupy present (.table index) (fun x found => ?_)
      fun other x apart found => frameAt_addTable apart found
    simpa only [Pgdir.frameAt, Pgdir.addTable, update_self, Option.some.injEq, eq_comm] using found

/-- The frame of a user page is no longer loose. -/
theorem Enters.owns (enters : Enters Hidden d page entry vm mapped next)
    (owns : vm.Owns (entry.frame :: loose)) : next.Owns (if mapped then loose else entry.frame :: loose) := by
  cases enters with
  | starved => exact owns
  | set tabled =>
    refine (tabled.owns owns).occupy tabled.present (.page page) (fun x found => ?_) fun other x apart found => ?_
    · simp only [Pgdir.frameAt, Pgdir.setEntry, update_self, Option.map_some] at found
      split at found
      · exact (Option.some.inj found).symm
      · cases found
    · rwa [frameAt_setEntry apart] at found

theorem Enters.kernel (enters : Enters Hidden d page entry vm mapped next) (high : KERNPAGE ≤ page)
    (owns : vm.Owns loose) : next.Owns loose := by
  cases enters with
  | starved => exact owns
  | set tabled =>
    refine (tabled.owns owns).shrink tabled.present fun part x found => ?_
    by_cases here : part = .page page
    · subst here
      simp only [Pgdir.frameAt, if_neg (Nat.not_lt.mpr high)] at found
      cases found
    · rwa [frameAt_setEntry here] at found

theorem draws_tail (d : Nat) (pool : vm.free = frame :: rest) : Draws d vm { vm with free := rest } :=
  ⟨⟨rfl, rfl, rfl, fun _ _ => rfl, id⟩, pool ▸ List.suffix_cons _ _, fun _ _ => rfl, rfl, List.suffix_refl _⟩

theorem draws_setDir (d : Nat) (vm : Vm) (dir : Option Pgdir) : Draws d vm (vm.setDir d dir) :=
  ⟨Beside.setDir d vm dir, List.suffix_refl _, fun _ _ => rfl, rfl, List.suffix_refl _⟩

theorem draws_starved (d : Nat) (vm : Vm) : Draws d vm { vm with starved := true } :=
  ⟨⟨rfl, rfl, rfl, fun _ _ => rfl, fun _ => rfl⟩, List.suffix_refl _, fun _ _ => rfl, rfl, List.suffix_refl _⟩

theorem draws_fill {bytes : Nat → Byte} (d : Nat) (pool : vm.free = frame :: rest) :
    Draws d vm (Vm.fill { vm with free := rest } frame bytes) where
  beside := ⟨rfl, rfl, rfl, fun _ _ => rfl, id⟩
  free := pool ▸ List.suffix_cons _ _
  mem other used := by
    have apart : other ≠ frame := fun same => used (by rw [pool, same]; exact List.mem_cons_self)
    exact update_of_ne apart _ _
  stores := rfl
  grants := List.suffix_refl _

theorem draws_grant (d : Nat) (vm : Vm) (mapped : Bool) (page frame : Nat) :
    Draws d vm (vm.grant mapped d page frame) := by
  cases mapped with
  | false => exact Draws.refl d vm
  | true => exact ⟨⟨rfl, rfl, rfl, fun _ _ => rfl, id⟩, List.suffix_refl _, fun _ _ => rfl, rfl, List.suffix_cons _ _⟩

theorem Tabled.draws {index : Nat} (tabled : Tabled d index vm dir next) : Draws d vm next := by
  cases tabled with
  | old => exact Draws.refl d vm
  | new _ _ pool => exact (draws_tail d pool).trans (draws_setDir d _ _)

theorem Enters.draws (enters : Enters Hidden d page entry vm mapped next) : Draws d vm next := by
  cases enters with
  | starved => exact draws_starved d vm
  | set tabled => exact tabled.draws.trans (draws_setDir d _ _)

theorem Fills.draws {pages : List (Nat × Entry)} (fills : Fills Hidden d pages vm mapped next) : Draws d vm next := by
  induction fills with
  | nil vm => exact Draws.refl d vm
  | stop enters => exact enters.draws
  | cons enters _ ih => exact enters.draws.trans ih

theorem Fills.owns {pages : List (Nat × Entry)} (fills : Fills Hidden d pages vm mapped next)
    (high : ∀ page ∈ pages.map Prod.fst, KERNPAGE ≤ page) (owns : vm.Owns loose) : next.Owns loose := by
  induction fills with
  | nil vm => exact owns
  | stop enters => exact enters.kernel (high _ List.mem_cons_self) owns
  | cons enters _ ih =>
    exact ih (fun page member => high page (List.mem_cons_of_mem _ member))
      (enters.kernel (high _ List.mem_cons_self) owns)

theorem kernel_high (link : Link) : ∀ page ∈ (rowsMapping (kmap link)).map Prod.fst, KERNPAGE ≤ page := by
  intro page member
  simp only [rowsMapping, kmap, List.flatMap_cons, List.flatMap_nil, List.append_nil, List.map_append,
    mapping_pages, List.mem_append, List.mem_range'_1, KERNPAGE, DEVPAGE] at member ⊢
  omega

/-- What a call that returns a new directory, if it succeeds, leaves. -/
structure Made (vm : Vm) (loose : List Nat) (made : Option Nat) (next : Vm) : Prop where
  owns : next.Owns loose
  link : next.link = vm.link
  tasks : next.tasks = vm.tasks
  starved : vm.starved = true → next.starved = true
  kept : ∀ e, vm.dirs e ≠ none → next.dirs e = vm.dirs e
  fresh : ∀ d, made = some d → vm.dirs d = none

theorem Made.of_beside {made : Option Nat} (owns : next.Owns loose) (unused : vm.dirs d = none)
    (beside : Beside d vm next) (result : ∀ e, made = some e → e = d) : Made vm loose made next :=
  { beside with
    owns := owns
    kept := fun e used => beside.dirs e fun same => used (same ▸ unused)
    fresh := fun e same => result e same ▸ unused }

theorem Made.extend {middle : Vm} {made : Option Nat} (first : Made vm loose (some d) middle)
    (owns : next.Owns loose) (more : Beside d middle next) (result : ∀ e, made = some e → e = d) :
    Made vm loose made next where
  owns := owns
  link := more.link.trans first.link
  tasks := more.tasks.trans first.tasks
  starved := more.starved ∘ first.starved
  kept e used := (more.dirs e fun same => used (same ▸ first.fresh d rfl)).trans (first.kept e used)
  fresh e same := result e same ▸ first.fresh d rfl

theorem SetsUp.draws (setsUp : SetsUp Hidden vm result next) : ∃ d, Draws d vm next ∧ ∀ e, result = some e → e = d := by
  cases setsUp with
  | starved => exact ⟨0, draws_starved 0 vm, nofun⟩
  | @built d rest filled _ pool fills =>
    refine ⟨d, ((draws_tail d pool).trans (draws_setDir d _ _)).trans fills.draws, fun e same => ?_⟩
    cases filled with
    | false => cases same
    | true => exact (Option.some.inj same).symm

theorem SetsUp.made (setsUp : SetsUp Hidden vm result next) (owns : vm.Owns loose) : Made vm loose result next := by
  cases setsUp with
  | starved => exact ⟨owns, rfl, rfl, fun _ => rfl, fun _ _ => rfl, nofun⟩
  | @built e rest filled _ pool fills =>
    have taken := owns.take pool
    have draws := ((draws_tail e pool).trans (draws_setDir e _ _)).trans fills.draws
    refine .of_beside (fills.owns (kernel_high _) taken.create) taken.fresh draws.beside fun f found => ?_
    cases filled with
    | false => cases found
    | true => exact (Option.some.inj found).symm

/-! ## User memory -/

theorem visited_later {start : Nat} (count : Nat) : ∀ other ∈ visited dir oldsz count start, start ≤ other := by
  induction count generalizing start with
  | zero => exact nofun
  | succ count ih =>
    intro other member
    rw [visited] at member
    split at member
    · cases member
    · split at member
      · exact Nat.le_of_add_right_le (ih other member)
      · rcases List.mem_cons.mp member with rfl | later
        · exact Nat.le_refl _
        · exact Nat.le_of_succ_le (ih other later)

theorem visited_nodup (count start : Nat) : (visited dir oldsz count start).Nodup := by
  induction count generalizing start with
  | zero => exact List.nodup_nil
  | succ count ih =>
    rw [visited]
    split
    · exact List.nodup_nil
    · split
      · exact ih _
      · exact List.nodup_cons.mpr ⟨fun member => absurd (visited_later count _ member) (by omega), ih _⟩

theorem freed_nodup : (freed dir oldsz newsz).Nodup := by
  unfold freed
  split
  · exact List.nodup_nil
  · exact (visited_nodup _ _).map fun _ _ same => Part.page.inj same

theorem parts_nodup : dir.parts.Nodup := by
  refine List.nodup_append.mpr ⟨freed_nodup, List.nodup_range.map fun _ _ same => Part.table.inj same, ?_⟩
  intro part first other second same
  simp only [freed, List.mem_map] at first second
  obtain ⟨index, _, rfl⟩ := second
  split at first
  · cases first
  · obtain ⟨page, _, rfl⟩ := List.mem_map.mp first
    cases same

theorem filterMap_inside (present : vm.dirs d = some dir) (parts : List Part) :
    (parts.map (Place.inside d)).filterMap vm.occupant = parts.filterMap (dir.frameAt d) := by
  rw [List.filterMap_map]
  exact congrArg (fun f => parts.filterMap f) (funext (occupant_inside present))

theorem inside_nodup {parts : List Part} (nodup : parts.Nodup) : (parts.map (Place.inside d)).Nodup :=
  nodup.map fun _ _ same => (Place.inside.inj same).2

theorem drop_owns {parts : List Part} (owns : vm.Owns loose) (present : vm.dirs d = some dir)
    (nodup : parts.Nodup) (inner : .self ∉ parts) : (vm.drop d dir parts).Owns loose := by
  have released := Owned.release owns (inside_nodup nodup : (parts.map (Place.inside d)).Nodup)
  rw [filterMap_inside present] at released
  refine released.forget fun place x held => ?_
  rcases occupant_setDir held with ⟨part, _, rfl, same, found⟩ | ⟨apart, elsewhere⟩
  · cases same
    by_cases self : part = .self
    · subst self
      rw [if_neg (by simpa using inner), occupant_inside present]
      exact found
    · rw [frameAt_without self] at found
      split at found
      · cases found
      · rename_i kept
        rw [if_neg (by simpa using kept), occupant_inside present]
        exact found
  · rw [if_neg fun member => ?_]
    · exact elsewhere
    · obtain ⟨part, _, same⟩ := List.mem_map.mp member
      exact apart part same.symm

theorem freed_inner : .self ∉ freed dir oldsz newsz := by
  unfold freed
  split <;> simp

theorem dealloc_beside (d oldsz newsz : Nat) (vm : Vm) : Beside d vm (vm.dealloc d oldsz newsz) := by
  unfold Vm.dealloc
  split
  · exact Beside.refl d vm
  · exact ⟨rfl, rfl, rfl, fun _ apart => setDir_other apart _, id⟩

theorem dealloc_owns (owns : vm.Owns loose) : (vm.dealloc d oldsz newsz).Owns loose := by
  unfold Vm.dealloc
  split
  · exact owns
  · rename_i dir present
    exact drop_owns owns present freed_nodup freed_inner

theorem discard_beside (d : Nat) (vm : Vm) (dir : Pgdir) : Beside d vm (vm.discard d dir) :=
  ⟨rfl, rfl, rfl, fun _ apart => (setDir_other apart _).trans (setDir_other apart _), id⟩

theorem discard_owns (owns : vm.Owns loose) (present : vm.dirs d = some dir) : (vm.discard d dir).Owns loose := by
  have nodup : (dir.parts ++ [Part.self]).Nodup := by
    refine List.nodup_append.mpr ⟨parts_nodup, List.nodup_singleton _, fun part first other second same => ?_⟩
    rw [List.mem_singleton.mp second] at same
    rw [same] at first
    simp [Pgdir.parts, freed_inner] at first
  have released := Owned.release owns (inside_nodup nodup : ((dir.parts ++ [Part.self]).map (Place.inside d)).Nodup)
  rw [filterMap_inside present, List.filterMap_append, List.reverse_append] at released
  refine released.forget fun place x held => ?_
  rcases occupant_setDir held with ⟨_, _, _, same, _⟩ | ⟨apart, elsewhere⟩
  · cases same
  · have kept : ¬ (place ∈ (dir.parts ++ [Part.self]).map (Place.inside d)) := fun member => by
      obtain ⟨part, _, same⟩ := List.mem_map.mp member
      exact apart part same.symm
    rw [if_neg kept]
    cases place with
    | inside e part =>
      have other : e ≠ d := fun same => apart part (by rw [same])
      simpa only [Vm.occupant, Vm.drop, setDir_other other] using elsewhere
    | stack pid | pipe p => exact elsewhere

/-! ## Rounds -/

theorem Enters.user (enters : Enters Hidden d page (userEntry frame) vm mapped next)
    (owns : vm.Owns (frame :: loose)) : next.Owns loose := by
  have after := enters.owns owns
  cases mapped with
  | true => exact after
  | false => exact Owned.lose after

theorem GrowRound.draws (round : GrowRound Hidden d page vm next) : Draws d vm next := by
  obtain ⟨pool, enters⟩ := round
  exact ((draws_fill d pool).trans enters.draws).trans (draws_grant d _ _ _ _)

theorem GrowRound.owns (round : GrowRound Hidden d page vm next) (owns : vm.Owns loose) : next.Owns loose := by
  obtain ⟨pool, enters⟩ := round
  have after := enters.user (owns.take pool)
  unfold Vm.grant
  split <;> exact after

variable {pgdir : Nat}

theorem CopyRound.draws (round : CopyRound Hidden pgdir d page vm next) : Draws d vm next := by
  obtain ⟨_, _, pool, enters⟩ := round
  exact (draws_fill d pool).trans enters.draws

theorem CopyRound.owns (round : CopyRound Hidden pgdir d page vm next) (owns : vm.Owns loose) : next.Owns loose := by
  obtain ⟨_, _, pool, enters⟩ := round
  exact enters.user (owns.take pool)

theorem Rounds.draws {Round : Nat → Vm → Vm → Prop} (rounds : Rounds Round page vm last next)
    (each : ∀ page vm next, Round page vm next → Draws d vm next) : Draws d vm next :=
  rounds.keeps (fun _ => Draws d vm) (fun _ _ _ _ round before => before.trans (each _ _ _ round)) (Draws.refl d vm)

theorem Rounds.grown (rounds : Rounds (GrowRound Hidden d) page vm last next) : Draws d vm next :=
  rounds.draws fun _ _ _ => GrowRound.draws

theorem Rounds.copied (rounds : Rounds (CopyRound Hidden pgdir d) page vm last next) : Draws d vm next :=
  rounds.draws fun _ _ _ => CopyRound.draws

theorem Grows.owns (grows : Grows Hidden d oldsz newsz page last vm sz next) (owns : vm.Owns loose) :
    next.Owns loose := by
  cases grows with
  | done rounds => exact rounds.keeps (fun _ now => now.Owns loose) (fun _ _ _ _ => GrowRound.owns) owns
  | @short _ middle _ rounds =>
    have starved : Vm.Owns { middle with starved := true } loose :=
      rounds.keeps (fun _ now => now.Owns loose) (fun _ _ _ _ => GrowRound.owns) owns
    exact dealloc_owns starved

theorem Grows.beside (grows : Grows Hidden d oldsz newsz page last vm sz next) :
    Beside d vm next ∧ (sz = newsz ∨ sz = 0 ∧ next.starved = true) := by
  cases grows with
  | done rounds => exact ⟨rounds.grown.beside, .inl rfl⟩
  | @short _ middle _ rounds =>
    have freed := dealloc_beside d newsz oldsz { middle with starved := true }
    exact ⟨(rounds.grown.trans (draws_starved d _)).beside.trans freed, .inr ⟨rfl, freed.starved rfl⟩⟩

theorem Expands.bound (expands : Expands Hidden d oldsz newsz vm sz next) (bound : oldsz ≤ KERNBASE) :
    sz ≤ KERNBASE := by
  cases expands with
  | large => exact Nat.zero_le _
  | less => exact bound
  | more _ _ grows =>
    have result := grows.beside.2
    omega

theorem Expands.owns (expands : Expands Hidden d oldsz newsz vm sz next) (owns : vm.Owns loose) :
    next.Owns loose ∧ Beside d vm next := by
  cases expands with
  | large | less => exact ⟨owns, Beside.refl d vm⟩
  | more _ _ grows => exact ⟨grows.owns owns, grows.beside.1⟩

theorem Copies.draws {copied : Bool} (copies : Copies Hidden pgdir d page last vm copied next) : Draws d vm next := by
  cases copies with
  | done rounds => exact rounds.copied
  | short _ rounds => exact rounds.copied.trans (draws_starved d _)
  | lost _ rounds pool enters => exact rounds.copied.trans ((draws_fill d pool).trans enters.draws)

theorem Copies.owns {copied : Bool} (copies : Copies Hidden pgdir d page last vm copied next)
    (owns : vm.Owns loose) : next.Owns loose := by
  have rounds {stop : Nat} {middle : Vm} (rounds : Rounds (CopyRound Hidden pgdir d) page vm stop middle) :
      middle.Owns loose :=
    rounds.keeps (fun _ now => now.Owns loose) (fun _ _ _ _ => CopyRound.owns) owns
  cases copies with
  | done copied => exact rounds copied
  | short _ copied =>
    have after := rounds copied
    exact after
  | lost _ copied pool enters => exact enters.user ((rounds copied).take pool)

theorem Duplicates.made (duplicates : Duplicates Hidden pgdir sz vm result next) (owns : vm.Owns loose) :
    Made vm loose result next := by
  cases duplicates with
  | unmade setsUp => exact setsUp.made owns
  | done setsUp copies =>
    have first := setsUp.made owns
    exact first.extend (copies.owns first.owns) copies.draws.beside fun e same => (Option.some.inj same).symm
  | undone setsUp copies present =>
    have first := setsUp.made owns
    exact first.extend (discard_owns (copies.owns first.owns) present)
      (copies.draws.beside.trans (discard_beside _ _ _)) nofun

end Frames

end Xv6Dedup.Paging
