import Xv6Dedup.Paging.Deallocation
import Xv6Dedup.Paging.Processes

/-!
# Copies of address spaces

A copy that `copyuvm` makes has the bytes of the parent in frames of its own, but all
its pages are writable and accessible.
-/

set_option autoImplicit false

namespace Xv6Dedup.Paging

open Function Program

/-- The pages of the parent below the size are in the copy, with the same bytes and
permissions but in other frames, and there are no others. -/
structure Faithful (vm : Vm) (dir : Pgdir) (sz : Nat) (next : Vm) (copy : Pgdir) : Prop where
  pages : ∀ page entry, page < pageUp sz → dir.entry page = some entry → ∃ frame,
    copy.entry page = some { entry with frame := frame } ∧
    next.mem frame = vm.mem entry.frame ∧ next.mem entry.frame = vm.mem entry.frame ∧
    ∀ other found, other < KERNPAGE → dir.entry other = some found → found.frame ≠ frame
  others : ∀ page, page < KERNPAGE → pageUp sz ≤ page → copy.entry page = none

/-- After the rounds of `copyuvm` before `page`. -/
structure Mirrors (vm : Vm) (loose : List Nat) (dir : Pgdir) (d page : Nat) (now : Vm) (copy : Pgdir) :
    Prop where
  low : page ≤ KERNPAGE
  draws : Draws d vm now
  owns : now.Owns loose
  present : now.dirs d = some copy
  wf : copy.Wf
  kernel : ∃ entry, copy.entry KERNPAGE = some entry ∧ entry.user = false
  same : ∀ p, p < page → ∃ entry frame, dir.entry p = some entry ∧
    copy.entry p = some (userEntry frame) ∧ now.mem frame = vm.mem entry.frame

section Copying

variable {Hidden : List Bool → Prop} {vm next : Vm} {loose : List Nat} {d page frame pgdir sz last : Nat}
  {dir : Pgdir} {entry : Entry}

theorem Vm.Owns.used (owns : vm.Owns loose) (present : vm.dirs d = some dir) (low : page < KERNPAGE)
    (mapped : dir.entry page = some entry) : entry.frame ∉ vm.free := by
  have held : vm.occupant (.inside d (.page page)) = some entry.frame := by
    rw [occupant_inside present, Pgdir.frameAt, if_pos low, mapped, Option.map_some]
  exact fun member => owns.apart _ _ held (List.mem_append_right _ member)

theorem CopyRound.mirrors (round : CopyRound Hidden pgdir d page vm next) {start : Vm} {copy : Pgdir}
    (owns : start.Owns loose) (apart : pgdir ≠ d) (parent : start.dirs pgdir = some dir)
    (mirrors : Mirrors start loose dir d page vm copy) :
    ∃ changed, Mirrors start loose dir d (page + 1) next changed := by
  have draws := round.draws
  have after := round.owns mirrors.owns
  obtain ⟨again, source, pool, enters⟩ := round
  rename_i frame rest other entry
  cases ((mirrors.draws.beside.dirs pgdir apart).trans parent).symm.trans again
  obtain ⟨changed, present, extended, entered⟩ := enters.extends mirrors.wf mirrors.present
  obtain ⟨kernel, high, hidden⟩ := mirrors.kernel
  have below : page < KERNPAGE := by
    refine Nat.lt_of_le_of_ne mirrors.low ?_
    rintro rfl
    cases (extended.kept _ _ high).symm.trans (entered rfl)
    cases hidden
  refine ⟨changed, below, mirrors.draws.trans draws, after, present, extended.wf,
    ⟨kernel, extended.kept _ _ high, hidden⟩, fun p earlier => ?_⟩
  by_cases here : p = page
  · subst here
    have fresh : frame ∉ rest := by
      have nodup := (List.nodup_append.mp mirrors.owns.nodup).2.1
      rw [pool] at nodup
      exact (List.nodup_cons.mp nodup).1
    refine ⟨entry, frame, source, entered rfl, ?_⟩
    rw [enters.draws.mem frame fresh]
    simp only [Vm.fill, update_self]
    exact mirrors.draws.mem _ (owns.used parent below source)
  · obtain ⟨entry, frame, before, copied, bytes⟩ := mirrors.same p (by omega)
    refine ⟨entry, frame, before, extended.kept _ _ copied, ?_⟩
    rw [draws.mem frame (mirrors.owns.used mirrors.present (by omega) copied), bytes]

theorem Duplicates.mirrors (duplicates : Duplicates Hidden pgdir sz vm (some d) next)
    (owns : vm.Owns loose) (parent : vm.dirs pgdir = some dir) :
    vm.dirs d = none ∧ ∃ copy, Mirrors vm loose dir d (pageUp sz) next copy ∧ next.Covers d (pageUp sz) := by
  cases duplicates with
  | done setsUp copies =>
    have made := setsUp.made owns
    have fresh := made.fresh d rfl
    have apart : pgdir ≠ d := fun same => nomatch (same ▸ fresh).symm.trans parent
    obtain ⟨e, draws, same⟩ := setsUp.draws
    cases same d rfl
    obtain ⟨copy, present, wf, entries⟩ := setsUp.kernel rfl
    have kernel : copy.entry KERNPAGE = some { frame := 0, write := true, user := false } :=
      entries _ _ (List.mem_flatMap.mpr ⟨_, List.mem_cons_self, mapping_head (by decide)⟩)
    have covers := copies.covers setsUp.covers
    cases copies with
    | done rounds =>
      refine ⟨fresh, ?_⟩
      obtain ⟨after, mirrors⟩ := rounds.keeps (fun page now => ∃ copy, Mirrors vm loose dir d page now copy)
        (fun _ _ _ _ round ⟨_, before⟩ => round.mirrors owns apart parent before)
        ⟨copy, Nat.zero_le _, draws, made.owns, present, wf, ⟨_, kernel, rfl⟩, nofun⟩
      exact ⟨after, mirrors, covers⟩

/-- The frames of a new directory were free. -/
theorem drawn {part : Part} (owns : vm.Owns loose) (unused : vm.dirs d = none) (beside : Beside d vm next)
    (keeps : ∀ loose, vm.Owns loose → next.Owns loose) (present : next.dirs d = some dir)
    (found : dir.frameAt d part = some frame) : frame ∈ vm.free := by
  refine Owned.drawn owns keeps ((occupant_inside present part).trans found) fun place before => ?_
  cases place with
  | inside e other =>
    have different : e ≠ d := by
      rintro rfl
      simp [Vm.occupant, unused] at before
    exact ⟨by simpa only [Vm.occupant, beside.dirs e different] using before, by simp [different]⟩
  | stack pid => exact ⟨by simpa only [Vm.occupant, beside.tasks] using before, by rintro ⟨⟩⟩
  | pipe p => exact ⟨by simpa only [Vm.occupant, beside.pipes] using before, by rintro ⟨⟩⟩

theorem Duplicates.faithful (duplicates : Duplicates Hidden pgdir sz vm (some d) next)
    (owns : vm.Owns loose) (parent : vm.dirs pgdir = some dir) : ∃ copy, next.dirs d = some copy ∧
      (Faithful vm dir sz next copy ↔ ∀ page entry, page < pageUp sz → dir.entry page = some entry →
        entry.write = true ∧ entry.user = true) := by
  obtain ⟨fresh, copy, mirrors, other, again, maps⟩ := duplicates.mirrors owns parent
  cases mirrors.present.symm.trans again
  refine ⟨copy, again, fun faithful page entry below found => ?_, fun all => ⟨?_, ?_⟩⟩
  · obtain ⟨frame, copied, _⟩ := faithful.pages page entry below found
    obtain ⟨_, _, _, written, _⟩ := mirrors.same page below
    have same := Option.some.inj (copied.symm.trans written)
    rw [Entry.mk.injEq] at same
    exact same.2
  · intro page entry below found
    obtain ⟨again, frame, source, copied, bytes⟩ := mirrors.same page below
    cases found.symm.trans source
    obtain ⟨write, user⟩ := all page entry below found
    have low : page < KERNPAGE := below.trans_le mirrors.low
    have held : copy.frameAt d (.page page) = some frame := by
      rw [Pgdir.frameAt, if_pos low, copied, Option.map_some]
    have free : frame ∈ vm.free :=
      drawn owns fresh mirrors.draws.beside (fun _ owns => (duplicates.made owns).owns) mirrors.present held
    refine ⟨frame, ?_, bytes, mirrors.draws.mem _ (owns.used parent low found), fun other held high there same => ?_⟩
    · rw [copied, write, user]
    · exact owns.used parent high there (same ▸ free)
  · intro page low beyond
    exact Option.not_isSome_iff_eq_none.mp fun there => absurd ((maps.user page low).mp there) (by omega)

/-! ## The frames of a copy -/

/-- The page tables for the first pages. -/
def tablesFor (pages : Nat) : Nat := (pages + (NPTENTRIES - 1)) / NPTENTRIES

theorem card_tables (few : page ≤ KERNPAGE) :
    (kernelTables ∪ Finset.range (tablesFor page)).card = 64 + tablesFor page := by
  rw [Finset.card_union_of_disjoint, kernel_card, Finset.card_range]
  refine Finset.disjoint_left.mpr fun index kernel user => ?_
  simp only [kernelTables, Finset.mem_union, Finset.mem_Ico, Finset.mem_range, tablesFor, NPTENTRIES,
    KERNPAGE] at few kernel user
  omega

/-- A directory with the kernel part and the first pages; with them, `count` frames were there. -/
structure Filled (count d page : Nat) (now : Vm) (dir : Pgdir) : Prop where
  low : page ≤ KERNPAGE
  present : now.dirs d = some dir
  maps : dir.Maps (· < page)
  tables : dir.tables = kernelTables ∪ Finset.range (tablesFor page)
  free : now.free.length + page + tablesFor page = count

variable {count : Nat}

theorem CopyRound.filled (round : CopyRound Hidden pgdir d page vm next) (low : page < KERNPAGE)
    (filled : Filled count d page vm dir) : ∃ changed, Filled count d (page + 1) next changed := by
  obtain ⟨changed, present, maps⟩ := round.covers ⟨dir, filled.present, filled.maps⟩
  obtain ⟨_, _, pool, enters⟩ := round
  obtain ⟨other, counts⟩ := enters.counts (by simp only [NPTENTRIES, NPDENTRIES, KERNPAGE] at low ⊢; omega)
    filled.present
  cases present.symm.trans counts.present
  have tables : changed.tables = kernelTables ∪ Finset.range (tablesFor (page + 1)) := by
    rw [counts.tables, filled.tables, Finset.union_assoc]
    congr 1
    ext index
    simp only [Finset.mem_union, Finset.mem_range, Finset.mem_singleton, tablesFor, NPTENTRIES]
    omega
  have before := filled.free
  have free := counts.free
  rw [filled.tables, card_tables filled.low, tables, card_tables (show page + 1 ≤ KERNPAGE from low)] at free
  rw [pool, List.length_cons] at before
  simp only [Vm.fill] at free
  exact ⟨changed, low, present, maps, tables, by omega⟩

theorem Copies.filled {copied : Bool} (copies : Copies Sure pgdir d 0 last vm copied next)
    (low : last ≤ KERNPAGE) (filled : Filled count d 0 vm dir) : ∃ stop left changed,
      Filled left d stop next changed ∧ if copied then stop = last ∧ left = count
      else stop < last ∧ next.free = [] ∧ (left = count ∨ stop % NPTENTRIES = 0 ∧ left + 1 = count) := by
  have all {stop : Nat} {middle : Vm} (rounds : Rounds (CopyRound Sure pgdir d) 0 vm stop middle)
      (before : stop ≤ last) : ∃ changed, Filled count d stop middle changed :=
    rounds.keeps (fun page now => ∃ dir, Filled count d page now dir)
      (fun _ _ _ earlier round ⟨_, filled⟩ => round.filled (by omega) filled) ⟨dir, filled⟩
  cases copies with
  | done rounds =>
    obtain ⟨changed, filled⟩ := all rounds (Nat.le_refl _)
    exact ⟨last, count, changed, filled, rfl, rfl⟩
  | @short stop middle before rounds short =>
    obtain ⟨changed, filled⟩ := all rounds before.le
    exact ⟨stop, count, changed, { filled with }, before, short_empty short, .inl rfl⟩
  | @lost stop frame rest _ middle _ before rounds pool enters =>
    obtain ⟨changed, filled⟩ := all rounds before.le
    cases enters with
    | starved present missing short =>
      cases filled.present.symm.trans present
      have empty : rest = [] := short_empty short
      have free := filled.free
      rw [pool, empty, List.length_singleton] at free
      have absent : stop / NPTENTRIES ∉ changed.tables := fun member => by
        have there := (Finset.mem_filter.mp member).2
        rw [missing] at there
        cases there
      simp only [filled.tables, Finset.mem_union, Finset.mem_range, not_or] at absent
      refine ⟨stop, stop + tablesFor stop, changed, ⟨filled.low, filled.present, filled.maps, filled.tables, ?_⟩,
        before, empty, .inr ⟨?_, by omega⟩⟩
      · simp [Vm.fill, empty]
      · have := absent.2
        simp only [tablesFor, NPTENTRIES] at this ⊢
        omega

theorem countP_below {most : Nat} (few : count ≤ most) {p : Nat → Bool}
    (same : ∀ n, n < most → (p n = true ↔ n < count)) : (List.range' 0 most).countP p = count := by
  obtain ⟨more, rfl⟩ := Nat.exists_eq_add_of_le few
  rw [← List.range_eq_range', List.range_add, List.countP_append, List.countP_eq_length.mpr, List.length_range,
    List.countP_eq_zero.mpr, Nat.add_zero]
  · intro n member
    obtain ⟨m, small, rfl⟩ := List.mem_map.mp member
    rw [same _ (by simp at small; omega)]
    omega
  · intro n member
    rw [List.mem_range] at member
    exact (same n (by omega)).mpr member

/-- All frames of the directory are freed. -/
theorem discard_length (filled : Filled count d page vm dir) : (vm.discard d dir).free.length = count + 65 := by
  have first : pageUp 0 = 0 := by decide
  have released : Released vm d KERNBASE 0 dir _ := (drop_released (Nat.le_refl KERNBASE) (by decide) filled.maps.wf).mpr
    fun page _ _ missed => by rw [first] at missed; exact absurd missed.1 (Nat.not_lt_zero _)
  have pages : (dir.framesBetween 0 KERNBASE).length = page := by
    rw [Pgdir.framesBetween, first, show pageUp KERNBASE - 0 = KERNPAGE from by decide, List.length_filterMap_eq_countP]
    refine countP_below filled.low fun other low => ?_
    rw [Option.isSome_map]
    exact filled.maps.user other low
  have tables : (((List.range NPDENTRIES).map Part.table).filterMap (dir.frameAt d)).length = 64 + tablesFor page := by
    rw [← card_tables filled.low, ← filled.tables, Pgdir.tables, List.filterMap_map,
      List.length_filterMap_eq_countP, List.countP_eq_length_filter]
    simp only [Finset.card_def, Finset.filter_val, Finset.range_val, Multiset.range, Multiset.filter_coe,
      Multiset.coe_card, Bool.decide_eq_true]
    rfl
  have length := released.free.length_eq
  have free := filled.free
  simp only [Vm.drop, Vm.setDir, List.length_append, List.length_reverse, pages] at length
  simp only [Vm.discard, Vm.drop, Vm.setDir, Pgdir.parts, List.filterMap_append, List.length_cons, List.length_append,
    List.length_reverse, tables]
  omega

/-- The outcome of a copy with so many frames, and how many are left of them. -/
inductive Outcome (frames pages : Nat) : (copied : Bool) → (left : Nat) → Prop
  | unmade (few : frames < 65) : Outcome frames pages false 0
  | undone {stop : Nat} (before : stop < pages) (used : frames = 65 + stop + tablesFor stop) :
      Outcome frames pages false frames
  | lost {stop left : Nat} (before : NPTENTRIES * stop < pages) (used : left = 65 + (NPTENTRIES + 1) * stop)
      (one : frames = left + 1) : Outcome frames pages false left
  | done {left : Nat} (enough : frames = 65 + pages + tablesFor pages + left) : Outcome frames pages true left

theorem Outcome.copied {frames pages left : Nat} {copied : Bool} (outcome : Outcome frames pages copied left)
    (enough : 65 + pages + tablesFor pages ≤ frames) : copied = true := by
  simp only [tablesFor, NPTENTRIES] at enough
  cases outcome with
  | unmade few => omega
  | undone before used =>
    simp only [tablesFor, NPTENTRIES] at used
    omega
  | lost before used one =>
    simp only [NPTENTRIES] at before used
    omega
  | done => rfl

theorem SetsUp.filled (setsUp : SetsUp Hidden vm (some d) next) :
    ∃ count dir, vm.free.length = count + 65 ∧ Filled count d 0 next dir := by
  obtain ⟨dir, present, tables, free, _⟩ := setsUp.counts rfl
  obtain ⟨other, again, maps⟩ := setsUp.covers
  cases present.symm.trans again
  refine ⟨next.free.length, dir, free, Nat.zero_le _, present, maps, ?_, rfl⟩
  rw [tables, show tablesFor 0 = 0 from by decide, Finset.range_zero, Finset.union_empty]

theorem Duplicates.outcome {result : Option Nat} (duplicates : Duplicates Sure pgdir sz vm result next)
    (bound : sz ≤ KERNBASE) : Outcome vm.free.length (pageUp sz) result.isSome next.free.length := by
  have low := pageUp_le_kern bound
  cases duplicates with
  | unmade setsUp =>
    obtain ⟨few, none⟩ := setsUp.exhausts
    rw [none]
    exact .unmade few
  | done setsUp copies =>
    obtain ⟨count, dir, all, filled⟩ := setsUp.filled
    obtain ⟨stop, left, changed, after, rfl, rfl⟩ := copies.filled low filled
    have := after.free
    exact .done (by omega)
  | undone setsUp copies present =>
    obtain ⟨count, dir, all, filled⟩ := setsUp.filled
    obtain ⟨stop, left, changed, after, before, empty, lost⟩ := copies.filled low filled
    cases present.symm.trans after.present
    have free := after.free
    rw [empty, List.length_nil] at free
    rw [discard_length after]
    rcases lost with rfl | ⟨start, one⟩
    · rw [all]
      exact .undone before (by omega)
    · have exact : NPTENTRIES * (stop / NPTENTRIES) = stop := Nat.mul_div_cancel' (Nat.dvd_of_mod_eq_zero start)
      refine .lost (exact.symm ▸ before) ?_ (by omega)
      simp only [tablesFor, NPTENTRIES] at free exact ⊢
      omega

/-- With all pages mapped and frames that `kfree` accepts, a copy does not stop. -/
theorem DuplicatesStop.never {reason : Stop} (stops : DuplicatesStop Sure pgdir sz vm reason next)
    (owns : vm.Owns loose) (valid : ∀ frame ∈ vm.free, vm.link.Valid frame) (bound : sz ≤ KERNBASE)
    (parent : vm.dirs pgdir = some dir) (wf : dir.Wf)
    (mapped : ∀ page, page < pageUp sz → (dir.entry page).isSome) : False := by
  have low := pageUp_le_kern bound
  cases stops with
  | @copy d middle setsUp stops =>
    have made := setsUp.made owns
    cases stops with
    | @source stop _ before rounds unmapped =>
      have used : vm.dirs pgdir ≠ none := by rw [parent]; nofun
      have apart : pgdir ≠ d := fun same => used (same ▸ made.fresh d rfl)
      have still : next.dirs pgdir = some dir :=
        ((rounds.copied.beside.dirs pgdir apart).trans (made.kept pgdir used)).trans parent
      exact unmapped.absurd still wf (mapped stop before)
    | @enter stop _ _ _ last _ before rounds _ halts =>
      have covers : last.Covers d stop := rounds.keeps (fun page now => now.Covers d page)
        (fun _ _ _ _ => CopyRound.covers) setsUp.covers
      exact covers_blank covers (by omega) (Nat.le_refl _) halts.wrong
  | @free d middle last setsUp copies halts =>
    have made := setsUp.made owns
    obtain ⟨_, _, _, filled⟩ := setsUp.filled
    obtain ⟨_, _, changed, after, _⟩ := copies.filled low filled
    obtain ⟨e, draws, same⟩ := setsUp.draws
    cases same d rfl
    have beside := draws.beside.trans copies.draws.beside
    refine halts.wrong ⟨changed, after.present, fun part frame _ found => beside.link ▸ valid frame ?_⟩
    exact drawn owns (made.fresh d rfl) beside (fun _ owns => copies.owns (setsUp.made owns).owns) after.present found

theorem copyuvm_surely (owns : vm.Owns loose) (valid : ∀ frame ∈ vm.free, vm.link.Valid frame)
    (bound : sz ≤ KERNBASE) (parent : vm.dirs pgdir = some dir) (wf : dir.Wf)
    (mapped : ∀ page, page < pageUp sz → (dir.entry page).isSome) :
    Surely (copyuvm pgdir sz) vm (Duplicates Sure pgdir sz vm) :=
  copyuvm_wp.stops fun _ _ stops => stops.never owns valid bound parent wf mapped

/-! ## Forking -/

/-- The entry that `allocproc` finds. -/
def Vm.unused (vm : Vm) : Option (Fin NPROC) :=
  (List.finRange NPROC).find? fun pid => (vm.tasks pid).isNone && !vm.embryo pid

def sys_fork (pid : Fin NPROC) : VmM Int := do
  let vm ← visible
  match vm.unused with
  | none => pure (-1)
  | some child => fork pid child

theorem Outcome.same_iff {frames pages left : Nat} {copied : Bool} (outcome : Outcome frames pages copied left) :
    (copied = false → left = frames) ↔ frames = 0 ∨ 65 ≤ frames ∧
      ∀ j, frames = 66 + (NPTENTRIES + 1) * j → pages ≤ NPTENTRIES * j := by
  simp only [NPTENTRIES]
  cases outcome with
  | unmade few =>
    constructor
    · intro same
      exact .inl (same rfl).symm
    · rintro (none | ⟨many, _⟩)
      · exact fun _ => none.symm
      · omega
  | undone before used =>
    refine ⟨fun _ => .inr ⟨by omega, fun j exact => ?_⟩, fun _ _ => rfl⟩
    simp only [tablesFor, NPTENTRIES] at used
    omega
  | @lost stop _ before used one =>
    simp only [NPTENTRIES] at before used
    constructor
    · intro same
      have := same rfl
      omega
    · rintro (none | ⟨_, far⟩)
      · omega
      · have := far stop (by omega)
        omega
  | done enough =>
    refine ⟨fun _ => .inr ⟨by omega, fun j exact => ?_⟩, nofun⟩
    simp only [tablesFor, NPTENTRIES] at enough
    omega

section Fork

variable {pid child : Fin NPROC} {task : Task} (owns : vm.Owns loose)
  (valid : ∀ frame ∈ vm.free, vm.link.Valid frame) (running : vm.tasks pid = some task)
  (bound : task.sz ≤ KERNBASE) (parent : vm.dirs task.pgdir = some dir) (wf : dir.Wf)
  (mapped : ∀ page, page < pageUp task.sz → (dir.entry page).isSome)
include owns valid running bound parent wf mapped

theorem fork_outcome : Surely (fork pid child) vm fun r next =>
    (r = -1 → next.tasks child = vm.tasks child ∧ next.embryo child = false) ∧
    ((r = -1 → next.free.length = vm.free.length) ↔ vm.free.length ≤ 1 ∨ 66 ≤ vm.free.length ∧
      ∀ j, vm.free.length = 67 + (NPTENTRIES + 1) * j → pageUp task.sz ≤ NPTENTRIES * j) := by
  refine Wp.seq (taskAt_wp.stops fun _ _ stopped => nomatch stopped.2.2.symm.trans running) ?_
  rintro other vm ⟨rfl, again⟩
  cases running.symm.trans again
  refine Wp.set (Wp.seq kalloc_wp fun stack middle allocs => ?_)
  cases allocs with
  | none short =>
    have empty : vm.free = [] := short_empty short
    exact Wp.set (Wp.pure ⟨fun _ => ⟨rfl, update_self _ _ _⟩, by simp [Vm.setEmbryo, empty]⟩)
  | @some kstack rest pool =>
    have pool : vm.free = kstack :: rest := pool
    have length : vm.free.length = rest.length + 1 := by rw [pool, List.length_cons]
    have taken : Vm.Owns { vm.setEmbryo child true with free := rest } (kstack :: loose) := owns.take pool
    refine Wp.seq (copyuvm_surely taken (fun frame member => valid frame (pool ▸ List.mem_cons_of_mem _ member))
      bound parent wf mapped) fun copied last duplicates => ?_
    have made := duplicates.made taken
    have same := (duplicates.outcome bound).same_iff
    have iff : (copied.isSome = false → last.free.length = rest.length) ↔ vm.free.length ≤ 1 ∨
        66 ≤ vm.free.length ∧ ∀ j, vm.free.length = 67 + (NPTENTRIES + 1) * j → pageUp task.sz ≤ NPTENTRIES * j := by
      rw [same]
      exact or_congr (by simp only; omega) (and_congr (by simp only; omega)
        (forall_congr' fun j => imp_congr_left (by simp only; omega)))
    cases copied with
    | none =>
      have accepted : last.link.Valid kstack := made.link ▸ valid kstack (pool ▸ List.mem_cons_self)
      refine Wp.seq (kfree_wp.stops fun _ _ halts => halts.wrong accepted) ?_
      rintro _ _ rfl
      refine Wp.set (Wp.pure ⟨fun _ => ⟨congrFun made.tasks child, update_self _ _ _⟩, ?_⟩)
      rw [← iff, length]
      simp [Vm.setEmbryo]
    | some d =>
      refine Wp.set (Wp.pure ⟨fun wrong => absurd wrong (by omega), ?_⟩)
      rw [← iff]
      exact ⟨fun _ => nofun, fun _ wrong => absurd wrong (by omega)⟩

/-- A `fork` that fails leaves as many frames free as there were, exactly if it fails
for the first frame, or neither the kernel part of the new directory nor a page table
after the frame of a page is what cannot be allocated. -/
theorem fork_returns_frames_iff : ∃ r next, sys_fork pid (vm, []) = .ok r next ∧
    ((r = -1 → next.1.free.length = vm.free.length ∧
        ∀ child, vm.unused = some child → next.1.tasks child = none ∧ next.1.embryo child = false) ↔
      vm.unused = none ∨ vm.free.length ≤ 1 ∨ 66 ≤ vm.free.length ∧
        ∀ j, vm.free.length = 67 + (NPTENTRIES + 1) * j → pageUp task.sz ≤ NPTENTRIES * j) := by
  cases found : vm.unused with
  | none =>
    refine ⟨-1, (vm, []), ?_, by simp⟩
    simp only [sys_fork, visible, bind, EStateM.bind, found]
    rfl
  | some child =>
    have runs : Surely (fork pid child) vm _ := fork_outcome owns valid running bound parent wf mapped
    obtain ⟨r, next, ran, ⟨entry, frames⟩, _⟩ := runs.total rfl
    have free : vm.tasks child = none := by
      have := List.find?_some found
      simp only [Bool.and_eq_true, Option.isNone_iff_eq_none] at this
      exact this.1
    refine ⟨r, next, ?_, ?_⟩
    · simp only [sys_fork, visible, bind, EStateM.bind, found]
      exact ran
    · rw [← frames]
      simp only [reduceCtorEq, false_or, Option.some.injEq, forall_eq']
      exact ⟨fun holds failed => (holds failed).1, fun holds failed => ⟨holds failed, free ▸ entry failed⟩⟩

end Fork

/-- A copy is faithful exactly if all pages of the parent are writable and accessible. -/
theorem copyuvm_faithful_iff {fails : List Bool} {after : Vm × List Bool} (owns : vm.Owns loose)
    (parent : vm.dirs pgdir = some dir) (ran : copyuvm pgdir sz (vm, fails) = .ok (some d) after) :
    ∃ copy, after.1.dirs d = some copy ∧ (Faithful vm dir sz after.1 copy ↔
      ∀ page entry, page < pageUp sz → dir.entry page = some entry → entry.write = true ∧ entry.user = true) := by
  have copies : Wp (fun _ => True) (copyuvm pgdir sz) vm _ _ := copyuvm_wp
  exact (copies.returned trivial ran).1.faithful owns parent

end Copying

/-! ## A process of one page -/

def pageDir (entry : Entry) : Pgdir where
  table := update (fun _ => none) 0 (some 0x201)
  entry := update (fun _ => none) 0 (some entry)

/-- The first process has one page; so many frames are free. -/
def pageVm (entry : Entry) (frames : Nat) : Vm where
  link := sampleLink
  free := List.range' 0x300 frames
  dirs := update (fun _ => none) 0x200 (some (pageDir entry))
  tasks := update (fun _ => none) initproc
    (some { pgdir := 0x200, sz := PGSIZE, kstack := 0x203, parent := initproc })

section Page

variable {entry : Entry} {frames : Nat}

theorem pageDir_wf : (pageDir entry).Wf := by
  intro page mapped
  by_cases here : page = 0
  · rw [here]
    rfl
  · simp [pageDir, update_of_ne here] at mapped

theorem pageDir_mapped (page : Nat) (below : page < pageUp PGSIZE) : ((pageDir entry).entry page).isSome := by
  rw [show page = 0 from Nat.lt_one_iff.mp below]
  rfl

theorem pageVm_occupant {place : Place} {frame : Nat} (held : (pageVm entry frames).occupant place = some frame) :
    (place, frame) ∈ [(.inside 0x200 .self, 0x200), (.inside 0x200 (.table 0), 0x201),
      (.inside 0x200 (.page 0), entry.frame), (.stack initproc, 0x203)] := by
  cases place with
  | pipe p => cases held
  | stack pid =>
    by_cases here : pid = initproc
    · subst here
      cases held
      simp
    · simp [Vm.occupant, pageVm, update_of_ne here] at held
  | inside d part =>
    by_cases here : d = 0x200
    · subst here
      cases part with
      | self =>
        cases held
        simp
      | table index | page index =>
        by_cases first : index = 0
        · subst first
          cases held
          simp
        · simp [Vm.occupant, pageVm, Pgdir.frameAt, pageDir, update_of_ne first] at held
    · simp [Vm.occupant, pageVm, update_of_ne here] at held

theorem pageVm_owns (own : entry.frame = 0x202) : (pageVm entry frames).Owns [] := by
  refine ⟨List.nodup_range' , fun place frame held member => ?_, fun first second frame one two => ?_⟩
  · have places := pageVm_occupant held
    have inside := List.mem_range'_1.mp member
    simp only [own, List.mem_cons, Prod.mk.injEq, List.not_mem_nil, or_false] at places
    omega
  · have first := pageVm_occupant one
    have second := pageVm_occupant two
    simp only [own, List.mem_cons, Prod.mk.injEq, List.not_mem_nil, or_false] at first second
    rcases first with ⟨rfl, rfl⟩ | ⟨rfl, rfl⟩ | ⟨rfl, rfl⟩ | ⟨rfl, rfl⟩ <;>
      exact Eq.symm (by simpa using second)

theorem pageVm_valid (few : frames ≤ 0x1000) :
    ∀ frame ∈ (pageVm entry frames).free, (pageVm entry frames).link.Valid frame := by
  intro frame member
  have inside := List.mem_range'_1.mp member
  simp only [pageVm, Link.Valid, sampleLink, STOPPAGE]
  omega

theorem pageVm_copies (own : entry.frame = 0x202) : ∃ d next,
    copyuvm 0x200 PGSIZE (pageVm entry 100, []) = .ok (some d) next ∧
      Duplicates Sure 0x200 PGSIZE (pageVm entry 100) (some d) next.1 := by
  have runs : Surely (copyuvm 0x200 PGSIZE) (pageVm entry 100) _ :=
    copyuvm_surely (pageVm_owns own) (pageVm_valid (by decide)) (by decide)
      (rfl : (pageVm entry 100).dirs 0x200 = some (pageDir entry)) pageDir_wf pageDir_mapped
  obtain ⟨result, next, ran, duplicates, _⟩ := runs.total rfl
  have outcome := duplicates.outcome (by decide)
  have frames : (pageVm entry 100).free.length = 100 := List.length_range'
  obtain ⟨d, rfl⟩ := Option.isSome_iff_exists.mp (outcome.copied (by rw [frames]; decide))
  exact ⟨d, next, ran, duplicates⟩

theorem copyuvm_faithful_page : ∃ d next copy,
    copyuvm 0x200 PGSIZE (pageVm (userEntry 0x202) 100, []) = .ok (some d) next ∧
    Faithful (pageVm (userEntry 0x202) 100) (pageDir (userEntry 0x202)) PGSIZE next.1 copy := by
  obtain ⟨d, next, ran, _⟩ := @pageVm_copies (userEntry 0x202) rfl
  have parent : (pageVm (userEntry 0x202) 100).dirs 0x200 = some (pageDir (userEntry 0x202)) := rfl
  obtain ⟨copy, _, faithful⟩ := copyuvm_faithful_iff (pageVm_owns rfl) parent ran
  refine ⟨d, next, copy, ran, faithful.mpr fun page entry below mapped => ?_⟩
  rw [show page = 0 from Nat.lt_one_iff.mp below] at mapped
  cases mapped
  exact ⟨rfl, rfl⟩

/-- The page of the parent is inaccessible, as `clearpteu` leaves it, and that of the child is not. -/
theorem copyuvm_opens_page : ∃ d next copy frame,
    copyuvm 0x200 PGSIZE (pageVm { frame := 0x202, write := true, user := false } 100, []) =
      .ok (some d) next ∧ next.1.dirs d = some copy ∧ copy.entry 0 = some (userEntry frame) ∧
    ¬ Faithful (pageVm { frame := 0x202, write := true, user := false } 100)
      (pageDir { frame := 0x202, write := true, user := false }) PGSIZE next.1 copy := by
  obtain ⟨d, next, ran, duplicates⟩ := @pageVm_copies { frame := 0x202, write := true, user := false } rfl
  have parent : (pageVm { frame := 0x202, write := true, user := false } 100).dirs 0x200 =
    some (pageDir { frame := 0x202, write := true, user := false }) := rfl
  obtain ⟨_, copy, mirrors, _⟩ := duplicates.mirrors (pageVm_owns rfl) parent
  obtain ⟨_, frame, _, opened, _⟩ := mirrors.same 0 (by decide)
  refine ⟨d, next, copy, frame, ran, mirrors.present, opened, fun faithful => ?_⟩
  obtain ⟨other, copied, _⟩ := faithful.pages 0 _ (by decide) rfl
  cases opened.symm.trans copied

theorem fork_returns_only_frame : ∃ r next, sys_fork initproc (pageVm (userEntry 0x202) 1, []) = .ok r next ∧
    (r = -1 → next.1.free.length = 1) := by
  obtain ⟨r, next, ran, returned⟩ := fork_returns_frames_iff (pageVm_owns rfl) (pageVm_valid (by decide))
    (rfl : (pageVm (userEntry 0x202) 1).tasks initproc = some _) (by decide) rfl pageDir_wf pageDir_mapped
  exact ⟨r, next, ran, fun failed => (returned.mpr (.inr (.inl (by decide))) failed).1⟩

/-- With two frames the page directory is allocated and lost. -/
theorem fork_loses_directory : ∃ next, sys_fork initproc (pageVm (userEntry 0x202) 2, []) = .ok (-1) next ∧
    (pageVm (userEntry 0x202) 2).free.length = 2 ∧ next.1.free.length = 1 :=
  ⟨_, rfl, rfl, rfl⟩

end Page

end Xv6Dedup.Paging
