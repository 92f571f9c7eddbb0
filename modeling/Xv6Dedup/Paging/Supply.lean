import Mathlib.Order.Interval.Finset.Nat
import Xv6Dedup.Paging.Size

/-!
# How many frames are taken

A page that is entered takes a frame for its page table, if there is none. So the
kernel part of a directory takes the same number of frames every time, and with
that many the first process can be set up.
-/

set_option autoImplicit false

namespace Xv6Dedup.Paging

open Function Program

/-- The program returns if no `kalloc` fails while there are frames. -/
abbrev Surely {α : Type} (program : VmM α) (vm : Vm) (Post : α → Vm → Prop) : Prop :=
  Wp (fun fails : List Bool => fails = []) program vm Post (fun _ _ => False)

def Pgdir.tables (dir : Pgdir) : Finset Nat :=
  (Finset.range NPDENTRIES).filter fun index => (dir.table index).isSome

/-- The page tables for these pages. -/
def indices (pages : List (Nat × Entry)) : Finset Nat :=
  (pages.map fun page => page.1 / NPTENTRIES).toFinset

def kernelTables : Finset Nat := Finset.Ico 512 568 ∪ Finset.Ico 1016 1024

section Supply

variable {Hidden : List Bool → Prop} {vm next : Vm} {d page frame index : Nat} {dir before : Pgdir}
  {entry : Entry} {mapped : Bool}

theorem short_empty (short : Short (fun fails => fails = []) vm) : vm.free = [] := by
  rcases short with empty | ⟨fails, none, some⟩
  · exact empty
  · exact absurd none some

theorem tables_addTable (valid : index < NPDENTRIES) : (dir.addTable index frame).tables = insert index dir.tables := by
  ext other
  rw [Pgdir.tables, Finset.mem_filter, Finset.mem_range, Finset.mem_insert, Pgdir.tables, Finset.mem_filter,
    Finset.mem_range]
  by_cases here : other = index
  · simp only [Pgdir.addTable, here, update_self, valid, Option.isSome_some, true_or, and_self]
  · simp only [Pgdir.addTable, update_of_ne here, here, false_or]

theorem mem_tables (valid : index < NPDENTRIES) : index ∈ dir.tables ↔ (dir.table index).isSome := by
  simp [Pgdir.tables, valid]

/-- A mapping that succeeds: the page tables after it and the frames for the new ones. -/
structure Tables (before : Pgdir) (vm : Vm) (added : Finset Nat) (d : Nat) (next : Vm) (dir : Pgdir) :
    Prop where
  present : next.dirs d = some dir
  tables : dir.tables = before.tables ∪ added
  free : vm.free.length + before.tables.card = next.free.length + dir.tables.card
  starved : next.starved = vm.starved

theorem Tables.trans {added more : Finset Nat} {middle : Vm} {between : Pgdir}
    (first : Tables before vm added d middle between) (second : Tables between middle more d next dir) :
    Tables before vm (added ∪ more) d next dir where
  present := second.present
  tables := by rw [second.tables, first.tables, Finset.union_assoc]
  free := by have := first.free; have := second.free; omega
  starved := second.starved.trans first.starved

theorem Tabled.counts (tabled : Tabled d index vm dir next) (valid : index < NPDENTRIES)
    (present : vm.dirs d = some before) : Tables before vm {index} d next dir := by
  cases tabled with
  | old again table =>
    cases present.symm.trans again
    have member := (mem_tables valid).mpr table
    exact ⟨present, by rw [Finset.union_comm, ← Finset.insert_eq, Finset.insert_eq_self.mpr member], rfl, rfl⟩
  | new again missing pool =>
    cases present.symm.trans again
    have fresh : index ∉ before.tables := by simp [mem_tables valid, missing]
    refine ⟨setDir_same _, ?_, ?_, rfl⟩
    · rw [tables_addTable valid, Finset.insert_eq, Finset.union_comm]
    · rw [tables_addTable valid, Finset.card_insert_of_notMem fresh, pool, List.length_cons]
      simp only [Vm.setDir]
      omega

theorem Enters.counts (enters : Enters Hidden d page entry vm true next)
    (valid : page / NPTENTRIES < NPDENTRIES) (present : vm.dirs d = some before) :
    ∃ dir, Tables before vm {page / NPTENTRIES} d next dir := by
  cases enters with
  | set tabled =>
    have counts := tabled.counts valid present
    exact ⟨_, setDir_same _, counts.tables, counts.free, counts.starved⟩

/-- When the frames run out, page tables for some of the pages are missing. -/
theorem Fills.counts {pages : List (Nat × Entry)} (fills : Fills Hidden d pages vm mapped next)
    (valid : ∀ page ∈ pages.map Prod.fst, page / NPTENTRIES < NPDENTRIES)
    (present : vm.dirs d = some before) : ∃ added dir,
      Tables before vm added d { next with starved := vm.starved } dir ∧
      if mapped then added = indices pages ∧ next.starved = vm.starved
      else added ⊆ indices pages ∧ Short Hidden next ∧ ∃ index ∈ indices pages, index ∉ dir.tables := by
  induction fills generalizing before with
  | nil vm => exact ⟨∅, before, ⟨present, (Finset.union_empty _).symm, rfl, rfl⟩, rfl, rfl⟩
  | stop enters =>
    rename_i page entry rest vm next
    cases enters with
    | starved again missing short =>
      cases present.symm.trans again
      have here : page / NPTENTRIES < NPDENTRIES := valid _ List.mem_cons_self
      refine ⟨∅, before, ⟨present, (Finset.union_empty _).symm, rfl, rfl⟩, Finset.empty_subset _, short,
        page / NPTENTRIES, by simp [indices], ?_⟩
      simp [mem_tables here, missing]
  | cons enters _ ih =>
    rename_i page entry rest vm middle next filled _
    obtain ⟨between, first⟩ := enters.counts (valid _ List.mem_cons_self) present
    obtain ⟨added, dir, second, outcome⟩ := ih (fun page member => valid page (List.mem_cons_of_mem _ member))
      first.present
    have list : indices ((page, entry) :: rest) = {page / NPTENTRIES} ∪ indices rest := by
      rw [indices, List.map_cons, List.toFinset_cons, Finset.insert_eq, indices]
    refine ⟨{page / NPTENTRIES} ∪ added, dir, ?_, ?_⟩
    · have both := first.trans second
      exact ⟨both.present, both.tables, both.free, rfl⟩
    · rw [list]
      cases filled with
      | true => exact ⟨by rw [outcome.1], outcome.2.trans first.starved⟩
      | false =>
        obtain ⟨less, short, index, member, missing⟩ := outcome
        exact ⟨Finset.union_subset_union_right less, short, index, Finset.mem_union_right _ member, missing⟩

theorem kernel_indices (link : Link) : indices (rowsMapping (kmap link)) = kernelTables := by
  have above := link.above
  have ordered := link.ordered
  have below := link.below
  simp only [EXTPAGES, STOPPAGE] at above below
  have pages (page : Nat) : page ∈ (rowsMapping (kmap link)).map Prod.fst ↔
      0x80000 ≤ page ∧ page < 0x8E000 ∨ 0xFE000 ≤ page ∧ page < 0x100000 := by
    simp only [rowsMapping, kmap, List.flatMap_cons, List.flatMap_nil, List.append_nil, List.map_append,
      mapping_pages, List.mem_append, List.mem_range'_1, EXTPAGES, KERNPAGE, STOPPAGE, DEVPAGE]
    omega
  ext index
  rw [indices, List.mem_toFinset, ← Function.comp_def (· / NPTENTRIES) Prod.fst, ← List.map_map, List.mem_map]
  simp only [pages, kernelTables, Finset.mem_union, Finset.mem_Ico, NPTENTRIES]
  constructor
  · rintro ⟨page, inside, rfl⟩
    omega
  · intro inside
    exact ⟨index * 1024, by omega, by omega⟩

theorem kernel_valid (link : Link) :
    ∀ page ∈ (rowsMapping (kmap link)).map Prod.fst, page / NPTENTRIES < NPDENTRIES := by
  intro page member
  have inside : page / NPTENTRIES ∈ kernelTables := by
    rw [← kernel_indices link, indices, List.mem_toFinset, ← Function.comp_def (· / NPTENTRIES) Prod.fst,
      ← List.map_map]
    exact List.mem_map_of_mem member
  simp only [kernelTables, Finset.mem_union, Finset.mem_Ico] at inside
  simp only [NPDENTRIES]
  omega

theorem kernel_card : kernelTables.card = 64 := by decide +kernel

/-- A new directory takes 65 frames. -/
theorem SetsUp.counts {result : Option Nat} (setsUp : SetsUp Hidden vm result next) (made : result = some d) :
    ∃ dir, next.dirs d = some dir ∧ dir.tables = kernelTables ∧
      vm.free.length = next.free.length + 65 ∧ next.starved = vm.starved := by
  cases setsUp with
  | starved => cases made
  | @built e rest filled _ pool fills =>
    cases filled with
    | false => cases made
    | true =>
      cases made
      obtain ⟨added, dir, counts, rfl, starved⟩ := fills.counts (kernel_valid _) (setDir_same _)
      have empty : Pgdir.tables {} = ∅ := by simp [Pgdir.tables]
      have tables := counts.tables
      have free := counts.free
      rw [empty, Finset.empty_union, kernel_indices] at tables
      rw [empty, tables, kernel_card, Finset.card_empty] at free
      refine ⟨dir, counts.present, tables, ?_, starved⟩
      rw [pool, List.length_cons]
      simp only [Vm.setDir] at free
      omega

/-- Without these frames the free list is used up. -/
theorem SetsUp.exhausts (setsUp : SetsUp (fun fails => fails = []) vm none next) :
    vm.free.length < 65 ∧ next.free = [] := by
  generalize failed : none = result at setsUp
  cases setsUp with
  | starved short => simp [short_empty short]
  | @built e rest filled _ pool fills =>
    cases filled with
    | true => cases failed
    | false =>
      obtain ⟨added, dir, counts, less, short, index, member, missing⟩ :=
        fills.counts (kernel_valid _) (setDir_same _)
      have empty : Pgdir.tables {} = ∅ := by simp [Pgdir.tables]
      have tables := counts.tables
      have free := counts.free
      rw [empty, Finset.empty_union] at tables
      simp only [short_empty short, Vm.setDir, List.length_nil] at free
      rw [kernel_indices] at less member
      have fewer : dir.tables.card < 64 := by
        rw [← kernel_card]
        exact Finset.card_lt_card ⟨tables ▸ less, fun all => missing (all member)⟩
      refine ⟨?_, short_empty short⟩
      rw [pool, List.length_cons]
      omega

/-! ## The first process -/

theorem covers_blank {count : Nat} (covers : vm.Covers d count) (low : page < KERNPAGE)
    (beyond : count ≤ page) : ¬ vm.Refuses d page := by
  obtain ⟨dir, present, maps⟩ := covers
  intro refuses
  have inside := (maps.user page low).mp (refuses dir present)
  omega

end Supply

def sampleLink : Link where
  data := 0x108
  last := 0x110
  above := by decide
  ordered := by decide
  below := by decide

end Xv6Dedup.Paging
