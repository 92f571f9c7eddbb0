import Xv6Dedup.Paging.Frames

/-!
# The user pages of a directory

Which pages are mapped after each of the memory calls, as long as no `kalloc` has
failed.
-/

set_option autoImplicit false

namespace Xv6Dedup.Paging

open Function Program

def Pgdir.Wf (dir : Pgdir) : Prop :=
  ∀ page, (dir.entry page).isSome → (dir.table (page / NPTENTRIES)).isSome

structure Pgdir.Extends (dir changed : Pgdir) : Prop where
  wf : changed.Wf
  kept : ∀ page entry, dir.entry page = some entry → changed.entry page = some entry

theorem Pgdir.Extends.refl {dir : Pgdir} (wf : dir.Wf) : dir.Extends dir := ⟨wf, fun _ _ => id⟩

theorem Pgdir.Extends.trans {dir middle changed : Pgdir} (first : dir.Extends middle)
    (second : middle.Extends changed) : dir.Extends changed :=
  ⟨second.wf, fun page entry mapped => second.kept page entry (first.kept page entry mapped)⟩

/-- The user pages of the directory are those in `pages`. -/
structure Pgdir.Maps (dir : Pgdir) (pages : Nat → Prop) : Prop where
  wf : dir.Wf
  user : ∀ page, page < KERNPAGE → ((dir.entry page).isSome ↔ pages page)

def Vm.Maps (vm : Vm) (d : Nat) (pages : Nat → Prop) : Prop :=
  ∃ dir, vm.dirs d = some dir ∧ dir.Maps pages

/-- The user pages are the first `count` ones. -/
abbrev Vm.Covers (vm : Vm) (d count : Nat) : Prop := vm.Maps d (· < count)

section Pages

variable {vm next : Vm} {loose : List Nat} {d page frame : Nat} {dir : Pgdir} {pages : Nat → Prop}

theorem Vm.Maps.congr {others : Nat → Prop} (maps : vm.Maps d pages)
    (same : ∀ page, page < KERNPAGE → (pages page ↔ others page)) : vm.Maps d others := by
  obtain ⟨dir, present, wf, user⟩ := maps
  exact ⟨dir, present, wf, fun page low => (user page low).trans (same page low)⟩

theorem Vm.Maps.kept (maps : vm.Maps d pages) (same : next.dirs d = vm.dirs d) : next.Maps d pages := by
  obtain ⟨dir, present, holds⟩ := maps
  exact ⟨dir, same.trans present, holds⟩

variable {index sz newsz oldsz : Nat}

theorem Pgdir.Wf.addTable_entry (wf : dir.Wf) (absent : dir.table index = none) :
    (dir.addTable index frame).entry = dir.entry := by
  funext page
  simp only [Pgdir.addTable]
  split
  · rename_i inside
    cases mapped : dir.entry page with
    | none => rfl
    | some entry =>
      have table := wf page (by rw [mapped]; rfl)
      rw [inside, absent] at table
      cases table
  · rfl

theorem Pgdir.Wf.addTable (wf : dir.Wf) (absent : dir.table index = none) : (dir.addTable index frame).Wf := by
  intro page mapped
  rw [wf.addTable_entry absent] at mapped
  by_cases here : page / NPTENTRIES = index
  · simp only [Pgdir.addTable, here, update_self, Option.isSome_some]
  · simp only [Pgdir.addTable, update_of_ne here, wf page mapped]

theorem Pgdir.Wf.setEntry {entry : Option Entry} (wf : dir.Wf)
    (table : (dir.table (page / NPTENTRIES)).isSome) : (dir.setEntry page entry).Wf := by
  intro other mapped
  by_cases here : other = page
  · rw [here]
    exact table
  · simp only [Pgdir.setEntry, update_of_ne here] at mapped
    exact wf other mapped

theorem Pgdir.Maps.addTable (maps : dir.Maps pages) (absent : dir.table index = none) :
    (dir.addTable index frame).Maps pages := by
  refine ⟨maps.wf.addTable absent, fun page low => ?_⟩
  rw [maps.wf.addTable_entry absent]
  exact maps.user page low

theorem Pgdir.Maps.setEntry {entry : Entry} (maps : dir.Maps pages) (table : (dir.table (page / NPTENTRIES)).isSome) :
    (dir.setEntry page (some entry)).Maps fun other => pages other ∨ other = page := by
  refine ⟨maps.wf.setEntry table, fun other low => ?_⟩
  by_cases here : other = page
  · simp [here, Pgdir.setEntry]
  · simp [here, Pgdir.setEntry, maps.user other low]

variable {Hidden : List Bool → Prop} {entry : Entry} {mapped : Bool} {last : Nat}

theorem Tabled.maps (tabled : Tabled d index vm dir next) (maps : vm.Maps d pages) : dir.Maps pages := by
  obtain ⟨before, present, maps⟩ := maps
  cases tabled with
  | old again =>
    cases present.symm.trans again
    exact maps
  | new again missing =>
    cases present.symm.trans again
    exact maps.addTable missing

theorem Enters.extends (enters : Enters Hidden d page entry vm mapped next) (wf : dir.Wf)
    (present : vm.dirs d = some dir) : ∃ changed, next.dirs d = some changed ∧ dir.Extends changed ∧
      (mapped = true → changed.entry page = some entry) := by
  cases enters with
  | starved => exact ⟨dir, present, .refl wf, nofun⟩
  | @set tabledDir _ tabled blank =>
    have first : dir.Extends tabledDir := by
      cases tabled with
      | old again =>
        cases present.symm.trans again
        exact .refl wf
      | new again missing =>
        cases present.symm.trans again
        exact ⟨wf.addTable missing, by rw [wf.addTable_entry missing]; exact fun _ _ => id⟩
    refine ⟨_, setDir_same _, first.trans ⟨first.wf.setEntry tabled.table, ?_⟩, fun _ => ?_⟩
    · intro other found before
      have apart : other ≠ page := by
        rintro rfl
        exact nomatch blank.symm.trans before
      simpa only [Pgdir.setEntry, update_of_ne apart] using before
    · simp only [Pgdir.setEntry, update_self]

theorem Fills.extends {list : List (Nat × Entry)} (fills : Fills Hidden d list vm mapped next)
    (wf : dir.Wf) (present : vm.dirs d = some dir) : ∃ changed, next.dirs d = some changed ∧
      dir.Extends changed ∧ (mapped = true → ∀ page entry, (page, entry) ∈ list → changed.entry page = some entry) := by
  induction fills generalizing dir with
  | nil => exact ⟨dir, present, .refl wf, fun _ _ _ => nofun⟩
  | stop enters =>
    obtain ⟨changed, after, extended, _⟩ := enters.extends wf present
    exact ⟨changed, after, extended, nofun⟩
  | cons enters _ ih =>
    obtain ⟨middle, between, first, entered⟩ := enters.extends wf present
    obtain ⟨changed, after, second, rest⟩ := ih first.wf between
    refine ⟨changed, after, first.trans second, fun whole page entry member => ?_⟩
    rcases List.mem_cons.mp member with same | later
    · cases same
      exact second.kept _ _ (entered rfl)
    · exact rest whole page entry later

theorem Enters.maps (enters : Enters Hidden d page entry vm mapped next) (maps : vm.Maps d pages) :
    if mapped then next.Maps d fun other => pages other ∨ other = page else next.starved = true := by
  cases enters with
  | starved => exact rfl
  | set tabled => exact ⟨_, setDir_same _, (tabled.maps maps).setEntry tabled.table⟩

theorem Fills.maps {list : List (Nat × Entry)} (fills : Fills Hidden d list vm mapped next)
    (high : ∀ page ∈ list.map Prod.fst, KERNPAGE ≤ page) (maps : vm.Maps d pages) :
    if mapped then next.Maps d pages else next.starved = true := by
  induction fills with
  | nil => exact maps
  | stop enters => exact enters.maps maps
  | cons enters _ ih =>
    have above := high _ List.mem_cons_self
    refine ih (fun page member => high page (List.mem_cons_of_mem _ member)) ?_
    exact Vm.Maps.congr (enters.maps maps) fun other low =>
      ⟨fun either => either.resolve_right (by omega), .inl⟩

theorem maps_empty : Pgdir.Maps {} (· < 0) := ⟨nofun, fun _ _ => ⟨nofun, nofun⟩⟩

variable {result : Option Nat}

theorem SetsUp.covers (setsUp : SetsUp Hidden vm result next) :
    match result with
    | none => next.starved = true
    | some d => next.Covers d 0 := by
  cases setsUp with
  | starved => exact rfl
  | @built d rest filled _ pool fills =>
    have after := fills.maps (kernel_high _) ⟨_, setDir_same _, maps_empty⟩
    cases filled with
    | false | true => exact after

theorem SetsUp.kernel (setsUp : SetsUp Hidden vm result next) (made : result = some d) :
    ∃ dir, next.dirs d = some dir ∧ dir.Wf ∧ ∀ page entry, (page, entry) ∈ rowsMapping (kmap vm.link) →
      dir.entry page = some entry := by
  cases setsUp with
  | starved => cases made
  | @built e rest filled _ pool fills =>
    cases filled with
    | false => cases made
    | true =>
      cases made
      have empty : Pgdir.Wf {} := nofun
      obtain ⟨dir, present, extended, entries⟩ := fills.extends empty (setDir_same _)
      exact ⟨dir, present, extended.wf, entries rfl⟩

theorem mapping_head {write : Bool} {count : Nat} (some : 0 < count) :
    (page, { frame := frame, write := write, user := false }) ∈ mapping write count page frame := by
  cases count with
  | zero => cases some
  | succ count => exact List.mem_cons_self

/-! ## User memory -/

theorem pageUp_le (bound : sz ≤ KERNBASE) : pageUp sz ≤ page ↔ sz ≤ page * PGSIZE := by
  simp only [pageUp, PGSIZE, KERNBASE] at bound ⊢
  omega

theorem pageUp_le_kern (bound : sz ≤ KERNBASE) : pageUp sz ≤ KERNPAGE := by
  rw [pageUp_le bound]
  exact bound

theorem pageUp_pageUp (bound : sz ≤ KERNBASE) : pageUp (pageUp sz * PGSIZE) = pageUp sz := by
  simp only [pageUp, PGSIZE, KERNBASE] at bound ⊢
  omega

/-- Page `other` is skipped by `deallocuvm` from `start` on: there is no page table for
`start`, and `other` lies in the first page table after it, but at a lower index. -/
def Pgdir.Missed (dir : Pgdir) (start other : Nat) : Prop :=
  other % NPTENTRIES < start % NPTENTRIES ∧
    ∀ index, start / NPTENTRIES ≤ index → index < max (start / NPTENTRIES + 1) (other / NPTENTRIES) →
      dir.table index = none

theorem mem_visited (count : Nat) {start other : Nat} (rounds : oldsz ≤ (start + count) * PGSIZE) :
    other ∈ visited dir oldsz count start ↔ start ≤ other ∧ other * PGSIZE < oldsz ∧
      (dir.table (other / NPTENTRIES)).isSome ∧ ¬ dir.Missed start other := by
  induction count generalizing start with
  | zero =>
    simp only [PGSIZE, Nat.add_zero] at rounds
    simp only [visited, List.not_mem_nil, false_iff, PGSIZE]
    omega
  | succ count ih =>
    have onwards (step : Nat) (some : 0 < step) : oldsz ≤ (start + step + count) * PGSIZE :=
      rounds.trans (Nat.mul_le_mul_right _ (by omega))
    rw [visited]
    split
    · rename_i past
      simp only [PGSIZE] at past
      simp only [List.not_mem_nil, false_iff, PGSIZE]
      omega
    · split
      · rename_i missing
        rw [ih (onwards NPTENTRIES (by decide))]
        constructor
        · rintro ⟨later, below, table, reached⟩
          refine ⟨by omega, below, table, fun missed => reached ⟨?_, fun index low high => ?_⟩⟩
          · simpa only [Nat.add_mod_right] using missed.1
          · exact missed.2 index (by simp only [NPTENTRIES] at low ⊢; omega) (by
              have := missed.1
              simp only [NPTENTRIES] at low high later this ⊢
              omega)
        · rintro ⟨later, below, table, reached⟩
          have apart : other / NPTENTRIES ≠ start / NPTENTRIES := by
            rintro same
            rw [same, missing] at table
            cases table
          have beyond : start + NPTENTRIES ≤ other := by
            by_contra near
            refine reached ⟨?_, fun index low high => ?_⟩
            · simp only [NPTENTRIES] at apart near ⊢
              omega
            · rw [show index = start / NPTENTRIES by simp only [NPTENTRIES] at apart near low high ⊢; omega]
              exact missing
          refine ⟨beyond, below, table, fun missed => reached ⟨?_, fun index low high => ?_⟩⟩
          · simpa only [Nat.add_mod_right] using missed.1
          · by_cases first : index = start / NPTENTRIES
            · rw [first]
              exact missing
            · exact missed.2 index (by simp only [NPTENTRIES] at first low ⊢; omega)
                (by simp only [NPTENTRIES] at first low high ⊢; omega)
      · rename_i there
        rw [List.mem_cons, ih (onwards 1 (by decide))]
        have never : ¬ dir.Missed start other := fun missed =>
          there (missed.2 _ (Nat.le_refl _) (by omega))
        have neverNext : ¬ dir.Missed (start + 1) other := fun missed => by
          have := missed.1
          by_cases same : (start + 1) / NPTENTRIES = start / NPTENTRIES
          · exact there (same ▸ missed.2 _ (Nat.le_refl _) (by omega))
          · simp only [NPTENTRIES] at same this
            omega
        constructor
        · rintro (rfl | ⟨later, below, table, _⟩)
          · exact ⟨Nat.le_refl _, by omega, Option.isSome_iff_ne_none.mpr there, never⟩
          · exact ⟨by omega, below, table, never⟩
        · rintro ⟨later, below, table, _⟩
          by_cases here : other = start
          · exact .inl here
          · exact .inr ⟨by omega, below, table, neverNext⟩

theorem mem_freed (bound : oldsz ≤ KERNBASE) (less : newsz < oldsz) :
    .page page ∈ freed dir oldsz newsz ↔ pageUp newsz ≤ page ∧ page < pageUp oldsz ∧
      (dir.table (page / NPTENTRIES)).isSome ∧ ¬ dir.Missed (pageUp newsz) page := by
  have rounds : oldsz ≤ (pageUp newsz + pageUp oldsz) * PGSIZE :=
    (pageUp_le bound).mp (Nat.le_add_left _ _)
  rw [freed, if_neg (by omega), List.mem_map_of_injective fun _ _ => Part.page.inj, mem_visited _ rounds,
    ← Nat.not_le, ← pageUp_le bound, Nat.not_le]

theorem freed_tables : .table index ∉ freed dir oldsz newsz := by
  unfold freed
  split <;> simp

theorem GrowRound.covers (round : GrowRound Hidden d page vm next)
    (covers : vm.starved = true ∨ vm.Covers d page) : next.starved = true ∨ next.Covers d (page + 1) := by
  have beside := round.draws.beside
  refine covers.elim (fun starved => .inl (beside.starved starved)) fun covers => ?_
  obtain ⟨pool, enters⟩ := round
  rename_i rest mapped middle
  have after := enters.maps (covers : Vm.Maps (Vm.fill { vm with free := rest } _ fun _ => 0) d _)
  cases mapped with
  | false => exact .inl after
  | true => exact .inr (Vm.Maps.congr after fun other _ => by omega)

theorem Grows.covers (grows : Grows Hidden d oldsz newsz page last vm sz next)
    (covers : vm.starved = true ∨ vm.Covers d page) : next.starved = true ∨ sz = newsz ∧ next.Covers d last := by
  cases grows with
  | done rounds =>
    refine (rounds.keeps (fun page now => now.starved = true ∨ now.Covers d page)
      (fun _ _ _ _ => GrowRound.covers) covers).imp id fun covers => ⟨rfl, covers⟩
  | short => exact .inl ((dealloc_beside d newsz oldsz _).starved rfl)

theorem Expands.covers (expands : Expands Hidden d oldsz newsz vm sz next)
    (covers : vm.starved = true ∨ vm.Covers d (pageUp oldsz)) :
    next.starved = true ∨ (sz = 0 ∧ next = vm ∨ next.Covers d (pageUp sz) ∧ max oldsz newsz = sz) := by
  cases expands with
  | large => exact .inr (.inl ⟨rfl, rfl⟩)
  | less _ less => exact covers.imp id fun covers => .inr ⟨covers, by omega⟩
  | more below more grows =>
    refine (grows.covers covers).imp id ?_
    rintro ⟨rfl, after⟩
    exact .inr ⟨after, by omega⟩

variable {pgdir : Nat}

theorem CopyRound.covers (round : CopyRound Hidden pgdir d page vm next) (covers : vm.Covers d page) :
    next.Covers d (page + 1) := by
  obtain ⟨_, _, _, enters⟩ := round
  exact Vm.Maps.congr (enters.maps covers) fun other _ => by omega

theorem Copies.covers {copied : Bool} (copies : Copies Hidden pgdir d page last vm copied next)
    (covers : vm.Covers d page) : if copied then next.Covers d last else next.starved = true := by
  cases copies with
  | done rounds => exact rounds.keeps (fun page now => now.Covers d page) (fun _ _ _ _ => CopyRound.covers) covers
  | short => exact rfl
  | lost _ _ _ enters =>
    cases enters with
    | starved => exact rfl

theorem Duplicates.covers (duplicates : Duplicates Hidden pgdir sz vm result next) :
    next.starved = true ∨ ∃ d, result = some d ∧ next.Covers d (pageUp sz) := by
  cases duplicates with
  | unmade setsUp => exact .inl setsUp.covers
  | done setsUp copies => exact .inr ⟨_, rfl, copies.covers setsUp.covers⟩
  | undone setsUp copies => exact .inl ((discard_beside _ _ _).starved (copies.covers setsUp.covers))

theorem clear_maps (maps : dir.Maps pages) : (dir.setEntry page
    ((dir.entry page).map fun entry => { entry with user := false })).Maps pages := by
  have same (other : Nat) : ((dir.setEntry page ((dir.entry page).map fun entry =>
      { entry with user := false })).entry other).isSome = (dir.entry other).isSome := by
    by_cases here : other = page
    · simp [here, Pgdir.setEntry]
    · simp only [Pgdir.setEntry, update_of_ne here]
  refine ⟨fun other mapped => maps.wf other ((same other).symm.trans mapped), fun other low => ?_⟩
  rw [same]
  exact maps.user other low

end Pages

end Xv6Dedup.Paging
