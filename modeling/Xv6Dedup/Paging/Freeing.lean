import Xv6Dedup.Paging.Mapping

/-!
# What freeing leaves

The state after `deallocuvm` and `freevm` is that before without the freed parts
of the directory, whose frames are in front of the free list.
-/

set_option autoImplicit false

namespace Xv6Dedup.Paging

open Function Program

/-- Frames that `kfree` accepts. -/
def Link.Valid (link : Link) (frame : Nat) : Prop := link.last ≤ frame ∧ frame < STOPPAGE

/-- The parts of a page directory that are frames of their own. -/
inductive Part where
  | self
  | table (index : Nat)
  | page (page : Nat)
  deriving DecidableEq

def Pgdir.frameAt (d : Nat) (dir : Pgdir) : Part → Option Nat
  | .self => some d
  | .table index => dir.table index
  | .page page => if page < KERNPAGE then (dir.entry page).map (·.frame) else none

/-- There is a directory whose frames can be freed, at the given parts. -/
def Vm.Proper (vm : Vm) (d : Nat) (At : Part → Prop) : Prop :=
  ∃ dir, vm.dirs d = some dir ∧ ∀ part frame, At part → dir.frameAt d part = some frame → vm.link.Valid frame

/-- User pages from one on, below a size. -/
def Part.Between (first sz : Nat) : Part → Prop
  | .page number => first ≤ number ∧ number * PGSIZE < sz
  | _ => False

def Pgdir.without (dir : Pgdir) (parts : List Part) : Pgdir where
  table index := if .table index ∈ parts then none else dir.table index
  entry page := if .page page ∈ parts then none else dir.entry page

/-- The state after the frames of the parts have been freed, in this order. -/
def Vm.drop (vm : Vm) (d : Nat) (dir : Pgdir) (parts : List Part) : Vm :=
  Vm.setDir { vm with free := (parts.filterMap (dir.frameAt d)).reverse ++ vm.free } d (some (dir.without parts))

/-- The pages that the loop of `deallocuvm` looks up in a page table. -/
def visited (dir : Pgdir) (oldsz : Nat) : (count page : Nat) → List Nat
  | 0, _ => []
  | count + 1, page =>
    if oldsz ≤ page * PGSIZE then []
    else if dir.table (page / NPTENTRIES) = none then visited dir oldsz count (page + NPTENTRIES)
    else page :: visited dir oldsz count (page + 1)

def freed (dir : Pgdir) (oldsz newsz : Nat) : List Part :=
  if oldsz ≤ newsz then [] else (visited dir oldsz (pageUp oldsz) (pageUp newsz)).map .page

/-- The state after `deallocuvm`. -/
def Vm.dealloc (vm : Vm) (d oldsz newsz : Nat) : Vm :=
  match vm.dirs d with
  | none => vm
  | some dir => vm.drop d dir (freed dir oldsz newsz)

/-- The parts that `freevm` frees before the directory itself. -/
def Pgdir.parts (dir : Pgdir) : List Part :=
  freed dir KERNBASE 0 ++ (List.range NPDENTRIES).map .table

/-- The state after `freevm`. -/
def Vm.discard (vm : Vm) (d : Nat) (dir : Pgdir) : Vm :=
  Vm.setDir { vm.drop d dir dir.parts with free := d :: (vm.drop d dir dir.parts).free } d none

section Freeing

variable {Hidden : List Bool → Prop} {vm : Vm} {d page frame : Nat} {dir : Pgdir} {wrong : Prop}
  {done : List Part} {part : Part} {oldsz newsz : Nat}

theorem kfree_wp : Wp Hidden (kfree frame) vm (fun _ next => next = { vm with free := frame :: vm.free })
    (Halts (¬ vm.link.Valid frame) vm) := by
  refine Wp.see (Wp.ite (fun outside => Wp.throw ⟨fun valid => ?_, by decide, _, _, rfl⟩) fun _ => Wp.change rfl)
  obtain ⟨_, _⟩ := valid
  omega

theorem frameAt_without (inner : part ≠ .self) :
    (dir.without done).frameAt d part = if part ∈ done then none else dir.frameAt d part := by
  cases part with
  | self => exact absurd rfl inner
  | table index => rfl
  | page page =>
    simp only [Pgdir.frameAt, Pgdir.without]
    split_ifs <;> rfl

theorem drop_nil (present : vm.dirs d = some dir) : vm.drop d dir [] = vm := setDir_self present

@[simp] theorem drop_dir : (vm.drop d dir done).dirs d = some (dir.without done) := setDir_same _

theorem drop_snoc (found : dir.frameAt d part = some frame) :
    Vm.setDir { vm.drop d dir done with free := frame :: (vm.drop d dir done).free } d
      (some (dir.without (done ++ [part]))) = vm.drop d dir (done ++ [part]) := by
  simp [Vm.drop, Vm.setDir, found]

theorem drop_skip (found : dir.frameAt d part = none) (kept : dir.without (done ++ [part]) = dir.without done) :
    vm.drop d dir (done ++ [part]) = vm.drop d dir done := by
  simp [Vm.drop, found, kept]

theorem without_page : dir.without (done ++ [.page page]) = (dir.without done).setEntry page none := by
  simp only [Pgdir.without, Pgdir.setEntry, List.mem_append, List.mem_singleton, reduceCtorEq, or_false,
    Pgdir.mk.injEq, true_and, Part.page.injEq]
  funext other
  by_cases here : other = page
  · simp [here]
  · simp [here]

theorem without_table {index : Nat} : dir.without (done ++ [.table index]) =
    { dir.without done with table := update (dir.without done).table index none } := by
  simp only [Pgdir.without, List.mem_append, List.mem_singleton, reduceCtorEq, or_false,
    Pgdir.mk.injEq, and_true, Part.table.injEq]
  funext other
  by_cases here : other = index
  · simp [here]
  · simp [here]

section Present

variable (present : vm.dirs d = some dir) {At : Part → Prop}
include present

theorem halts_drop (here : At part) (found : dir.frameAt d part = some frame) {reason : Stop} {next : Vm}
    (halts : Halts (¬ vm.link.Valid frame) (vm.drop d dir done) reason next) :
    Halts (¬ vm.Proper d At) vm reason next := by
  obtain ⟨invalid, common, dirs, free, rfl⟩ := halts
  refine ⟨?_, common, dirs, free, rfl⟩
  rintro ⟨other, again, valid⟩
  cases present.symm.trans again
  exact invalid (valid part frame here found)

theorem deallocFrom_wp {first : Nat} (bound : oldsz ≤ KERNBASE) (count : Nat) {page : Nat}
    {done : List Part} (later : first ≤ page) (earlier : ∀ p, .page p ∈ done → p < page) (tables : ∀ index, .table index ∉ done) :
    Wp Hidden (deallocFrom d oldsz count page) (vm.drop d dir done) (fun _ next =>
      next = vm.drop d dir (done ++ (visited dir oldsz count page).map .page))
      (Halts (¬ vm.Proper d (Part.Between first oldsz)) vm) := by
  induction count generalizing page done with
  | zero => exact Wp.pure (by simp [visited])
  | succ count ih =>
    refine Wp.ite (fun past => Wp.pure (by simp [visited, past])) fun inside => ?_
    have low : page < KERNPAGE := by
      simp only [PGSIZE, KERNBASE, KERNPAGE] at inside bound ⊢
      omega
    have fresh : .page page ∉ done := fun member => Nat.lt_irrefl _ (earlier page member)
    have table : (dir.without done).table (page / NPTENTRIES) = dir.table (page / NPTENTRIES) :=
      if_neg (tables _)
    have entry : (dir.without done).entry page = dir.entry page := if_neg fresh
    have earlierMore (p : Nat) (member : .page p ∈ done ++ [.page page]) : p < page + 1 := by
      rcases List.mem_append.mp member with before | here
      · exact (earlier p before).trans (Nat.lt_succ_self _)
      · cases List.mem_singleton.mp here
        exact Nat.lt_succ_self _
    have more := ih (Nat.le_succ_of_le later) earlierMore (by simpa using tables)
    refine lookup_wp (fun gone => by cases gone.symm.trans drop_dir) ?_ ?_
    · intro other again missing
      cases drop_dir.symm.trans again
      rw [table] at missing
      rw [visited, if_neg inside, if_pos missing]
      exact ih (Nat.le_add_right_of_le later)
        (fun p member => (earlier p member).trans_le (Nat.le_add_right _ _)) tables
    · intro other again there
      cases drop_dir.symm.trans again
      rw [table, Option.isSome_iff_ne_none] at there
      rw [visited, if_neg inside, if_neg there, List.map_cons, List.append_cons, entry]
      cases mapped : dir.entry page with
      | none =>
        rw [drop_skip (by simp [Pgdir.frameAt, mapped])] at more
        · exact more
        · rw [without_page]
          simp [Pgdir.setEntry, Pgdir.without, mapped]
      | some entry =>
        have found : dir.frameAt d (.page page) = some entry.frame := by
          simp [Pgdir.frameAt, low, mapped]
        have below : Part.Between first oldsz (.page page) := ⟨later, Nat.not_le.mp inside⟩
        have null (zero : entry.frame = 0) :
            Halts (¬ vm.link.Valid entry.frame) (vm.drop d dir done) (.panic "kfree") (vm.drop d dir done) :=
          ⟨fun within => by have := vm.link.ordered; have := within.1; omega, by decide, _, _, rfl⟩
        refine Wp.ite (fun zero => Wp.throw (halts_drop present below found (null zero))) fun _ =>
          Wp.seq (kfree_wp.stops fun _ _ => halts_drop present below found) ?_
        rintro _ _ rfl
        refine Wp.set ?_
        rw [← without_page, drop_snoc found]
        exact more

theorem freeTables_wp (all : ∀ part, At part) (count : Nat) {start : Nat} {done : List Part}
    (earlier : ∀ index, .table index ∈ done → index < start) :
    Wp Hidden (forUp (freeTable d) count start) (vm.drop d dir done) (fun _ next =>
      next = vm.drop d dir (done ++ (List.range' start count).map .table))
      (Halts (¬ vm.Proper d At) vm) := by
  induction count generalizing start done with
  | zero => exact Wp.pure (by simp)
  | succ count ih =>
    have fresh : .table start ∉ done := fun member => Nat.lt_irrefl _ (earlier start member)
    have kept : (dir.without done).table start = dir.table start := if_neg fresh
    have earlierMore (i : Nat) (member : .table i ∈ done ++ [.table start]) : i < start + 1 := by
      rcases List.mem_append.mp member with before | here
      · exact (earlier i before).trans (Nat.lt_succ_self _)
      · cases List.mem_singleton.mp here
        exact Nat.lt_succ_self _
    have more := ih earlierMore
    rw [List.range'_succ, List.map_cons, List.append_cons]
    refine Wp.bind (Wp.seq (dirAt_wp fun gone => nomatch gone.symm.trans drop_dir) ?_)
    rintro other _ ⟨rfl, again⟩
    cases drop_dir.symm.trans again
    rw [kept]
    cases found : dir.frameAt d (.table start) with
    | none =>
      rw [drop_skip found] at more
      · rw [show dir.table start = none from found]
        exact Wp.pure more
      · rw [without_table]
        simp [Pgdir.without, show dir.table start = none from found]
    | some frame =>
      rw [show dir.table start = some frame from found]
      refine Wp.seq (kfree_wp.stops fun _ _ => halts_drop present (all _) found) ?_
      rintro _ _ rfl
      refine Wp.change ?_
      rw [← without_table, drop_snoc found]
      exact more

end Present

theorem halts_missing {At : Part → Prop} (missing : vm.dirs d = none) :
    Halts (¬ vm.Proper d At) vm (.undefined "page directory") vm :=
  ⟨fun ⟨_, present, _⟩ => (nomatch missing.symm.trans present), by decide, _, _, rfl⟩

theorem dealloc_present (present : vm.dirs d = some dir) :
    vm.dealloc d oldsz newsz = vm.drop d dir (freed dir oldsz newsz) := by
  rw [Vm.dealloc, present]

theorem deallocuvm_wp (bound : oldsz ≤ KERNBASE) : Wp Hidden (deallocuvm d oldsz newsz) vm
    (fun sz next => sz = min oldsz newsz ∧ next = vm.dealloc d oldsz newsz)
    (Halts (¬ vm.Proper d (Part.Between (pageUp newsz) oldsz)) vm) := by
  unfold deallocuvm
  cases present : vm.dirs d with
  | none =>
    have same : vm.dealloc d oldsz newsz = vm := by rw [Vm.dealloc, present]
    rw [same]
    have stays (count page : Nat) : Wp Hidden (deallocFrom d oldsz count page) vm
        (fun _ next => next = vm) (Halts (¬ vm.Proper d (Part.Between (pageUp newsz) oldsz)) vm) := by
      cases count with
      | zero => exact Wp.pure rfl
      | succ count =>
        refine Wp.ite (fun _ => Wp.pure rfl) fun _ => lookup_wp halts_missing ?_ ?_
        · exact fun _ again => nomatch present.symm.trans again
        · exact fun _ again => nomatch present.symm.trans again
    exact Wp.ite (fun more => Wp.pure ⟨by omega, rfl⟩) fun less =>
      Wp.seq (stays _ _) fun _ _ after => Wp.pure ⟨by omega, after⟩
  | some dir =>
    rw [dealloc_present present, freed]
    split
    · exact Wp.pure ⟨by omega, (drop_nil present).symm⟩
    · have frees := @deallocFrom_wp Hidden vm d dir oldsz present (pageUp newsz) bound (pageUp oldsz)
        (pageUp newsz) [] (Nat.le_refl _) nofun nofun
      rw [drop_nil present] at frees
      exact Wp.seq frees fun _ next after => Wp.pure ⟨by omega, after⟩

theorem freevm_wp : Wp Hidden (freevm d) vm (fun _ next => ∃ dir, vm.dirs d = some dir ∧ next = vm.discard d dir)
    (Halts (¬ vm.Proper d fun _ => True) vm) := by
  cases present : vm.dirs d with
  | none =>
    -- the first page is looked up
    refine Wp.bind (Wp.bind (lookup_wp halts_missing ?_ ?_))
    · exact fun _ again => nomatch present.symm.trans again
    · exact fun _ again => nomatch present.symm.trans again
  | some dir =>
    refine Wp.seq ((deallocuvm_wp (Nat.le_refl _)).stops fun reason _ halts => ?_) ?_
    · refine { halts with wrong := fun proper => halts.wrong ?_ }
      obtain ⟨other, again, valid⟩ := proper
      exact ⟨other, again, fun part frame _ => valid part frame trivial⟩
    rintro _ _ ⟨_, rfl⟩
    rw [dealloc_present present]
    have untouched (index : Nat) (member : .table index ∈ freed dir KERNBASE 0) : index < 0 := by
      simp [freed] at member
    refine Wp.seq (freeTables_wp present (fun _ => trivial) NPDENTRIES untouched) ?_
    rintro _ _ rfl
    rw [← List.range_eq_range']
    refine Wp.set (kfree_wp.mono ?_ ?_)
    · rintro _ _ rfl
      exact ⟨dir, rfl, rfl⟩
    · rintro reason _ ⟨invalid, common, _, _, rfl⟩
      refine ⟨fun ⟨other, again, valid⟩ => invalid ?_, common, _, _, rfl⟩
      exact valid .self d trivial rfl

end Freeing

end Xv6Dedup.Paging
