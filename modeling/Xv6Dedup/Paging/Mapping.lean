import Xv6Dedup.Paging.Vm

/-!
# What the memory calls do

Each function that takes, maps or frees frames is described once, by a relation
between the states before and after or by the state after.
-/

set_option autoImplicit false

namespace Xv6Dedup.Paging

open Function Program

/-- What is assumed about the failures of `kalloc` still holds after a call. -/
class Supply (Hidden : List Bool → Prop) : Prop where
  tail : ∀ fails, Hidden fails → Hidden fails.tail

instance : Supply fun _ => True := ⟨fun _ _ => trivial⟩

/-- No call fails while there are frames. -/
abbrev Sure : List Bool → Prop := fun fails => fails = []

instance : Supply Sure := ⟨by rintro _ rfl; rfl⟩

/-- A call of `kalloc` may fail. -/
def Short (Hidden : List Bool → Prop) (vm : Vm) : Prop :=
  vm.free = [] ∨ ∃ fails, Hidden fails ∧ fails ≠ []

inductive Allocs (Hidden : List Bool → Prop) (vm : Vm) : Option Nat → Vm → Prop
  | none (short : Short Hidden vm) : Allocs Hidden vm none { vm with starved := true }
  | some {frame : Nat} {rest : List Nat} (pool : vm.free = frame :: rest) :
      Allocs Hidden vm (some frame) { vm with free := rest }

/-- There is a page table, if needed a new one: the directory and the state then. -/
inductive Tabled (d index : Nat) (vm : Vm) : Pgdir → Vm → Prop
  | old {dir : Pgdir} (present : vm.dirs d = some dir) (table : (dir.table index).isSome) : Tabled d index vm dir vm
  | new {dir : Pgdir} {frame : Nat} {rest : List Nat} (present : vm.dirs d = some dir)
      (missing : dir.table index = none) (pool : vm.free = frame :: rest) :
      Tabled d index vm (dir.addTable index frame)
        (Vm.setDir { vm with free := rest } d (some (dir.addTable index frame)))

inductive Enters (Hidden : List Bool → Prop) (d page : Nat) (entry : Entry) (vm : Vm) :
    Bool → Vm → Prop
  | set {dir : Pgdir} {middle : Vm} (tabled : Tabled d (page / NPTENTRIES) vm dir middle)
      (blank : dir.entry page = none) :
      Enters Hidden d page entry vm true (middle.setDir d (some (dir.setEntry page (some entry))))
  | starved {dir : Pgdir} (present : vm.dirs d = some dir)
      (missing : dir.table (page / NPTENTRIES) = none) (short : Short Hidden vm) :
      Enters Hidden d page entry vm false { vm with starved := true }

inductive Fills (Hidden : List Bool → Prop) (d : Nat) : List (Nat × Entry) → Vm → Bool → Vm → Prop
  | nil (vm : Vm) : Fills Hidden d [] vm true vm
  | stop {page : Nat} {entry : Entry} {rest : List (Nat × Entry)} {vm next : Vm}
      (enters : Enters Hidden d page entry vm false next) :
      Fills Hidden d ((page, entry) :: rest) vm false next
  | cons {page : Nat} {entry : Entry} {rest : List (Nat × Entry)} {vm middle next : Vm}
      {filled : Bool} (enters : Enters Hidden d page entry vm true middle)
      (fills : Fills Hidden d rest middle filled next) :
      Fills Hidden d ((page, entry) :: rest) vm filled next

/-- The pages and entries that `mappages` maps. -/
def mapping (write : Bool) : (count page frame : Nat) → List (Nat × Entry)
  | 0, _, _ => []
  | count + 1, page, frame =>
    (page, { frame := frame, write := write, user := false }) :: mapping write count (page + 1) (frame + 1)

def rowsMapping (rows : List (Nat × Nat × Nat × Bool)) : List (Nat × Entry) :=
  rows.flatMap fun row => mapping row.2.2.2 row.2.2.1 row.1 row.2.1

inductive SetsUp (Hidden : List Bool → Prop) (vm : Vm) : Option Nat → Vm → Prop
  | starved (short : Short Hidden vm) : SetsUp Hidden vm none { vm with starved := true }
  | built {d : Nat} {rest : List Nat} {filled : Bool} {next : Vm} (pool : vm.free = d :: rest)
      (fills : Fills Hidden d (rowsMapping (kmap vm.link))
        (Vm.setDir { vm with free := rest } d (some {})) filled next) :
      SetsUp Hidden vm (if filled then some d else none) next

/-- Why the functions below may stop. -/
def memoryStops : List Stop :=
  [.undefined "page directory", .panic "remap", .panic "kfree", .panic "clearpteu"]

/-- The call stops for one of these reasons, only if there is something wrong, and
has changed directories and the free list at most. -/
structure Halts (wrong : Prop) (vm : Vm) (reason : Stop) (next : Vm) : Prop where
  wrong : wrong
  reason : reason ∈ memoryStops
  state : ∃ dirs free, next = { vm with dirs := dirs, free := free }

/-- The page cannot be entered: there is no directory, or the page is mapped. -/
def Vm.Refuses (vm : Vm) (d page : Nat) : Prop :=
  ∀ dir, vm.dirs d = some dir → (dir.entry page).isSome

section Mapping

variable {Hidden : List Bool → Prop} {vm next : Vm} {d page frame : Nat} {dir : Pgdir}
  {entry : Entry} {filled : Bool} {α : Type} {Stops : Stop → Vm → Prop}

@[simp] theorem setDir_same (dir : Option Pgdir) : (vm.setDir d dir).dirs d = dir :=
  update_self _ _ _

theorem setDir_other {e : Nat} (other : e ≠ d) (dir : Option Pgdir) : (vm.setDir d dir).dirs e = vm.dirs e :=
  update_of_ne other _ _

theorem setDir_self (present : vm.dirs d = some dir) : vm.setDir d (some dir) = vm := by
  rw [Vm.setDir, ← present, update_eq_self]

theorem dirAt_wp (stops : vm.dirs d = none → Stops (.undefined "page directory") vm) :
    Wp Hidden (dirAt d) vm (fun dir next => next = vm ∧ vm.dirs d = some dir) Stops := by
  refine Wp.see ?_
  cases present : vm.dirs d with
  | none => exact Wp.throw (stops present)
  | some dir => exact Wp.pure ⟨rfl, rfl⟩

/-- Reading an entry of a page table, if there is one. -/
theorem lookup_wp {absent : VmM α} {rest : Pgdir → VmM α} {Post : α → Vm → Prop}
    (stops : vm.dirs d = none → Stops (.undefined "page directory") vm)
    (missing : ∀ dir, vm.dirs d = some dir → dir.table (page / NPTENTRIES) = none → Wp Hidden absent vm Post Stops)
    (there : ∀ dir, vm.dirs d = some dir → (dir.table (page / NPTENTRIES)).isSome → Wp Hidden (rest dir) vm Post Stops) :
    Wp Hidden (do
      let found ← walkpgdir d page false
      if found = false then absent
      else do
        let dir ← dirAt d
        rest dir) vm Post Stops := by
  refine Wp.bind (Wp.seq (dirAt_wp stops) ?_)
  rintro dir _ ⟨rfl, present⟩
  cases table : dir.table (page / NPTENTRIES) with
  | none =>
    exact Wp.pure (Wp.ite (fun _ => missing dir present table) fun wrong => absurd rfl wrong)
  | some frame =>
    refine Wp.pure (Wp.ite nofun fun _ => Wp.seq (dirAt_wp stops) ?_)
    rintro other _ ⟨rfl, again⟩
    cases present.symm.trans again
    exact there dir present (by rw [table]; rfl)

theorem kalloc_wp [Supply Hidden] : Wp Hidden kalloc vm (Allocs Hidden vm) Stops := by
  refine Wp.bind (Wp.remembered fun fails allowed => Wp.bind (Wp.remember Supply.tail (Wp.see ?_)))
  cases pool : vm.free with
  | nil => exact Wp.set (Wp.pure (pool ▸ (.none (.inl pool) : Allocs Hidden vm none _)))
  | cons frame rest =>
    refine Wp.ite (fun fail => Wp.set (Wp.pure ?_)) fun _ => Wp.set (Wp.pure (.some pool))
    have some : fails ≠ [] := by
      rintro rfl
      cases fail
    exact pool ▸ (.none (.inr ⟨fails, allowed, some⟩) : Allocs Hidden vm none _)

variable {middle : Vm}

theorem Tabled.present {index : Nat} (tabled : Tabled d index vm dir middle) : middle.dirs d = some dir := by
  cases tabled with
  | old present => exact present
  | new => exact setDir_same _

theorem Tabled.table {index : Nat} (tabled : Tabled d index vm dir middle) : (dir.table index).isSome := by
  cases tabled with
  | old _ table => exact table
  | new => simp [Pgdir.addTable]

theorem mappage_wp [Supply Hidden] : Wp Hidden (mappage d page entry) vm
    (Enters Hidden d page entry vm) (Halts (vm.Refuses d page) vm) := by
  have gone (missing : vm.dirs d = none) : Halts (vm.Refuses d page) vm (.undefined "page directory") vm :=
    ⟨fun dir present => (nomatch missing.symm.trans present), by decide, _, _, rfl⟩
  have enter {middle : Vm} {dir : Pgdir} (tabled : Tabled d (page / NPTENTRIES) vm dir middle)
      (full : (dir.entry page).isSome → Halts (vm.Refuses d page) vm (.panic "remap") middle) :
      Wp Hidden (do
        let dir ← dirAt d
        if (dir.entry page).isSome then panic "remap"
        else do
          change fun vm => vm.setDir d (some (dir.setEntry page (some entry)))
          pure true) middle (Enters Hidden d page entry vm) (Halts (vm.Refuses d page) vm) := by
    refine Wp.seq (dirAt_wp fun missing => nomatch missing.symm.trans tabled.present) ?_
    rintro other _ ⟨rfl, again⟩
    cases tabled.present.symm.trans again
    exact Wp.ite (fun mapped => Wp.throw (full mapped)) fun unmapped =>
      Wp.set (Wp.pure (.set tabled (Option.not_isSome_iff_eq_none.mp unmapped)))
  refine Wp.bind (Wp.seq (dirAt_wp gone) ?_)
  rintro dir _ ⟨rfl, present⟩
  cases table : dir.table (page / NPTENTRIES) with
  | some frame =>
    refine Wp.pure (Wp.ite nofun fun _ => enter (.old present (by rw [table]; rfl)) fun mapped => ?_)
    exact ⟨fun other again => Option.some.inj (present.symm.trans again) ▸ mapped, by decide, _, _, rfl⟩
  | none =>
    refine Wp.ite nofun fun _ => Wp.seq kalloc_wp fun result middle allocs => ?_
    cases allocs with
    | none short =>
      exact Wp.pure (Wp.ite (fun _ => Wp.pure (.starved present table short)) fun wrong => absurd rfl wrong)
    | some pool =>
      refine Wp.set (Wp.pure (Wp.ite nofun fun _ => enter (.new present table pool) ?_))
      simp [Pgdir.addTable]

theorem Enters.entries (enters : Enters Hidden d page entry vm filled next)
    (present : vm.dirs d = some dir) : ∃ changed, next.dirs d = some changed ∧
      ∀ other found, changed.entry other = some found →
        filled = true ∧ other = page ∧ found = entry ∨ dir.entry other = some found := by
  cases enters with
  | starved => exact ⟨dir, present, fun _ _ => .inr⟩
  | @set tabledDir middle tabled =>
    have less (other : Nat) (found : Entry) (mapped : tabledDir.entry other = some found) :
        dir.entry other = some found := by
      cases tabled with
      | old again =>
        cases present.symm.trans again
        exact mapped
      | new again =>
        cases present.symm.trans again
        simp only [Pgdir.addTable] at mapped
        split at mapped
        · cases mapped
        · exact mapped
    refine ⟨_, setDir_same _, fun other found mapped => ?_⟩
    by_cases here : other = page
    · simp only [Pgdir.setEntry, here, update_self, Option.some.injEq] at mapped
      exact .inl ⟨rfl, here, mapped.symm⟩
    · simp only [Pgdir.setEntry, update_of_ne here] at mapped
      exact .inr (less other found mapped)

theorem Enters.present (enters : Enters Hidden d page entry vm filled next) : ∃ dir, vm.dirs d = some dir := by
  cases enters with
  | starved present => exact ⟨_, present⟩
  | set tabled =>
    cases tabled with
    | old present | new present => exact ⟨_, present⟩

theorem Fills.entries {pages : List (Nat × Entry)} (fills : Fills Hidden d pages vm filled next)
    (present : vm.dirs d = some dir) : ∃ changed, next.dirs d = some changed ∧
      ∀ other found, changed.entry other = some found → (other, found) ∈ pages ∨ dir.entry other = some found := by
  induction fills generalizing dir with
  | nil vm => exact ⟨dir, present, fun _ _ => .inr⟩
  | stop enters =>
    obtain ⟨changed, after, entries⟩ := enters.entries present
    exact ⟨changed, after, fun other found mapped => .inr ((entries other found mapped).resolve_left nofun)⟩
  | cons enters _ ih =>
    obtain ⟨middle, between, entries⟩ := enters.entries present
    obtain ⟨changed, after, more⟩ := ih between
    refine ⟨changed, after, fun other found mapped => ?_⟩
    rcases more other found mapped with later | earlier
    · exact .inl (List.mem_cons_of_mem _ later)
    · rcases entries other found earlier with ⟨_, rfl, rfl⟩ | before
      · exact .inl List.mem_cons_self
      · exact .inr before

theorem Fills.append {pages more : List (Nat × Entry)} (first : Fills Hidden d pages vm true middle)
    (second : Fills Hidden d more middle filled next) : Fills Hidden d (pages ++ more) vm filled next := by
  generalize whole : true = all at first
  induction first with
  | nil vm => exact second
  | stop => cases whole
  | cons enters _ ih => exact .cons enters (ih second whole)

theorem Fills.short {pages more : List (Nat × Entry)} (fills : Fills Hidden d pages vm false next) :
    Fills Hidden d (pages ++ more) vm false next := by
  generalize partly : false = some at fills
  induction fills with
  | nil vm => cases partly
  | stop enters => exact .stop enters
  | cons enters _ ih => exact .cons enters (ih partly)

/-- The pages are different and not mapped. -/
structure Blank (pages : List (Nat × Entry)) (d : Nat) (vm : Vm) (dir : Pgdir) : Prop where
  present : vm.dirs d = some dir
  nodup : (pages.map Prod.fst).Nodup
  blank : ∀ page ∈ pages.map Prod.fst, dir.entry page = none

theorem Fills.blank {pages more : List (Nat × Entry)} (fills : Fills Hidden d pages vm filled next)
    (blank : Blank (pages ++ more) d vm dir) : ∃ changed, Blank more d next changed := by
  obtain ⟨changed, after, entries⟩ := fills.entries blank.present
  have nodup := blank.nodup
  rw [List.map_append, List.nodup_append] at nodup
  refine ⟨changed, after, nodup.2.1, fun page member => ?_⟩
  cases mapped : changed.entry page with
  | none => rfl
  | some found =>
    rcases entries page found mapped with inside | before
    · exact absurd rfl (nodup.2.2 page (List.mem_map_of_mem inside) page member)
    · rw [blank.blank page (by rw [List.map_append]; exact List.mem_append_right _ member)] at before
      cases before

theorem mappages_wp [Supply Hidden] {write : Bool} (count : Nat)
    (blank : Blank (mapping write count page frame) d vm dir) : Wp Hidden (mappages d write count page frame) vm
      (Fills Hidden d (mapping write count page frame) vm) Stops := by
  induction count generalizing vm page frame dir with
  | zero => exact Wp.pure (.nil vm)
  | succ count ih =>
    have clear : ¬ vm.Refuses d page := fun refuses => by
      have mapped := refuses dir blank.present
      rw [blank.blank page List.mem_cons_self] at mapped
      cases mapped
    refine Wp.seq (mappage_wp.stops fun _ _ halts => absurd halts.wrong clear) fun mapped middle enters => ?_
    cases mapped with
    | false => exact Wp.ite nofun fun _ => Wp.pure (.stop enters)
    | true =>
      obtain ⟨changed, rest⟩ := (Fills.cons enters (.nil middle)).blank blank
      exact Wp.ite (fun _ => (ih rest).post fun _ _ => .cons enters) fun wrong => absurd rfl wrong

theorem mapKernel_wp [Supply Hidden] (rows : List (Nat × Nat × Nat × Bool))
    (blank : Blank (rowsMapping rows) d vm dir) :
    Wp Hidden (mapKernel d rows) vm (Fills Hidden d (rowsMapping rows) vm) Stops := by
  induction rows generalizing vm dir with
  | nil => exact Wp.pure (.nil vm)
  | cons row rows ih =>
    have nodup := blank.nodup
    rw [rowsMapping, List.flatMap_cons, List.map_append] at nodup
    have first : Blank (mapping row.2.2.2 row.2.2.1 row.1 row.2.1) d vm dir :=
      ⟨blank.present, (List.nodup_append.mp nodup).1, fun page member => blank.blank page (by
        rw [rowsMapping, List.flatMap_cons, List.map_append]
        exact List.mem_append_left _ member)⟩
    refine Wp.seq (mappages_wp _ first) fun mapped middle fills => ?_
    cases mapped with
    | false => exact Wp.ite nofun fun _ => Wp.pure fills.short
    | true =>
      obtain ⟨changed, rest⟩ := fills.blank blank
      exact Wp.ite (fun _ => (ih rest).post fun _ _ => fills.append) fun wrong => absurd rfl wrong

theorem mapping_pages (write : Bool) (count page frame : Nat) :
    (mapping write count page frame).map Prod.fst = List.range' page count := by
  induction count generalizing page frame with
  | zero => rfl
  | succ count ih => rw [mapping, List.map_cons, ih, List.range'_succ]

theorem kernel_nodup (link : Link) : ((rowsMapping (kmap link)).map Prod.fst).Nodup := by
  have above := link.above
  have ordered := link.ordered
  have below := link.below
  simp only [EXTPAGES, STOPPAGE] at above below
  simp only [rowsMapping, kmap, List.flatMap_cons, List.flatMap_nil, List.append_nil, List.map_append,
    mapping_pages, List.nodup_append, List.mem_append, List.mem_range'_1, EXTPAGES, KERNPAGE, STOPPAGE,
    DEVPAGE]
  refine ⟨List.nodup_range' , ⟨List.nodup_range' , ⟨List.nodup_range' , List.nodup_range' , ?_⟩, ?_⟩, ?_⟩
  all_goals
    intros
    omega

theorem setupkvm_wp [Supply Hidden] : Wp Hidden setupkvm vm (SetsUp Hidden vm) Stops := by
  refine Wp.seq kalloc_wp fun result middle allocs => ?_
  cases allocs with
  | none short => exact Wp.pure (.starved short)
  | @some d rest pool =>
    have blank : Blank _ d (Vm.setDir { vm with free := rest } d (some {})) {} :=
      ⟨setDir_same _, kernel_nodup vm.link, fun _ _ => rfl⟩
    exact Wp.set (Wp.see (Wp.seq (mapKernel_wp _ blank) fun _ _ fills => Wp.pure (.built pool fills)))

end Mapping

end Xv6Dedup.Paging
