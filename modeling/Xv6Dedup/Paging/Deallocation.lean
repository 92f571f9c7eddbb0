import Xv6Dedup.Paging.Supply

/-!
# Shrinking a process

Where a page table is missing, `deallocuvm` goes on 1024 pages later, and so does not
come to the start of the next page table unless it began at the start of one.
-/

set_option autoImplicit false

namespace Xv6Dedup.Paging

open Function Program

/-- The frames of the pages from `PGROUNDUP(newsz)` to `oldsz`, one for each page. -/
def Pgdir.framesBetween (dir : Pgdir) (newsz oldsz : Nat) : List Nat :=
  (List.range' (pageUp newsz) (pageUp oldsz - pageUp newsz)).filterMap fun page =>
    (dir.entry page).map (·.frame)

/-- The pages of the range are gone and their frames free, once for each page. -/
structure Released (vm : Vm) (d oldsz newsz : Nat) (dir : Pgdir) (next : Vm) : Prop where
  pages : ∃ after, next.dirs d = some after ∧ after.table = dir.table ∧ ∀ page,
    after.entry page = if pageUp newsz ≤ page ∧ page * PGSIZE < oldsz then none else dir.entry page
  free : next.free.Perm (dir.framesBetween newsz oldsz ++ vm.free)
  rest : ∃ dirs free, next = { vm with dirs := dirs, free := free } ∧ ∀ e, e ≠ d → dirs e = vm.dirs e

section Deallocation

variable {vm : Vm} {d oldsz newsz : Nat} {dir : Pgdir}

theorem filterMap_perm {α β : Type} {f : α → Option β} {first second : List α} (one : first.Nodup)
    (two : second.Nodup) (same : ∀ x, (f x).isSome → (x ∈ first ↔ x ∈ second)) :
    (first.filterMap f).Perm (second.filterMap f) := by
  have only (list : List α) : list.filterMap f = (list.filter fun x => (f x).isSome).filterMap f := by
    rw [List.filterMap_filter]
    refine List.filterMap_congr fun x _ => ?_
    cases f x <;> rfl
  rw [only first, only second]
  refine List.Perm.filterMap f ((List.perm_ext_iff_of_nodup (one.filter _) (two.filter _)).mpr fun x => ?_)
  simp only [List.mem_filter]
  exact ⟨fun ⟨member, found⟩ => ⟨(same x found).mp member, found⟩,
    fun ⟨member, found⟩ => ⟨(same x found).mpr member, found⟩⟩

theorem drop_released (bound : oldsz ≤ KERNBASE) (less : newsz < oldsz) (wf : dir.Wf) :
    Released vm d oldsz newsz dir (vm.drop d dir (freed dir oldsz newsz)) ↔
      ∀ page, pageUp newsz ≤ page → page * PGSIZE < oldsz → dir.Missed (pageUp newsz) page → dir.entry page = none := by
  have below (page : Nat) : page < pageUp oldsz ↔ page * PGSIZE < oldsz := by
    rw [← Nat.not_le, pageUp_le bound, Nat.not_le]
  have member (page : Nat) : .page page ∈ freed dir oldsz newsz ↔ _ := mem_freed bound less
  constructor
  · rintro ⟨⟨after, present, _, entries⟩, _, _⟩ page later inside missed
    cases drop_dir.symm.trans present
    have kept : .page page ∉ freed dir oldsz newsz := fun visited => ((member page).mp visited).2.2.2 missed
    have gone := entries page
    rw [if_pos ⟨later, inside⟩] at gone
    simpa only [Pgdir.without, if_neg kept] using gone
  · intro unmapped
    have mapped {page : Nat} (there : (dir.entry page).isSome) : .page page ∈ freed dir oldsz newsz ↔
        pageUp newsz ≤ page ∧ page * PGSIZE < oldsz := by
      rw [member, below]
      refine ⟨fun inside => ⟨inside.1, inside.2.1⟩, fun inside => ⟨inside.1, inside.2, wf page there, fun missed => ?_⟩⟩
      rw [unmapped page inside.1 inside.2 missed] at there
      cases there
    refine ⟨⟨_, drop_dir, funext fun index => if_neg freed_tables, fun page => ?_⟩, ?_,
      _, _, rfl, fun e other => update_of_ne other _ _⟩
    · cases there : dir.entry page with
      | none => simp [Pgdir.without, there]
      | some entry => simp only [Pgdir.without, mapped (by rw [there]; rfl), there]
    · have low (page : Nat) (inside : page < pageUp oldsz) : page < KERNPAGE :=
        inside.trans_le (pageUp_le_kern bound)
      have frames : dir.framesBetween newsz oldsz =
          (List.range' (pageUp newsz) (pageUp oldsz - pageUp newsz)).filterMap (dir.frameAt d ∘ Part.page) := by
        refine List.filterMap_congr fun page inside => ?_
        rw [List.mem_range'_1] at inside
        simp only [comp_apply, Pgdir.frameAt, if_pos (low page (by omega))]
      refine List.Perm.append_right _ ((List.reverse_perm _).trans ?_)
      rw [freed, if_neg (by omega)] at mapped ⊢
      rw [List.filterMap_map, frames]
      refine filterMap_perm (visited_nodup _ _) List.nodup_range' fun page found => ?_
      have there : (dir.entry page).isSome := by
        simp only [comp_apply, Pgdir.frameAt] at found
        split at found
        · simpa using found
        · cases found
      have inside := mapped there
      rw [List.mem_map_of_injective fun _ _ => Part.page.inj, ← below] at inside
      rw [inside, List.mem_range'_1]
      omega

theorem deallocuvm_runs (bound : oldsz ≤ KERNBASE) (less : newsz < oldsz) (fails : List Bool)
    (present : vm.dirs d = some dir)
    (valid : ∀ page entry, pageUp newsz ≤ page → page * PGSIZE < oldsz → dir.entry page = some entry →
      vm.link.Valid entry.frame) :
    deallocuvm d oldsz newsz (vm, fails) = .ok newsz (vm.drop d dir (freed dir oldsz newsz), fails) := by
  have proper : vm.Proper d (Part.Between (pageUp newsz) oldsz) := by
    refine ⟨dir, present, fun part frame inside found => ?_⟩
    cases part with
    | self | table index => exact inside.elim
    | page page =>
      simp only [Pgdir.frameAt] at found
      split at found
      · obtain ⟨entry, mapped, rfl⟩ := Option.map_eq_some_iff.mp found
        exact valid page entry inside.1 inside.2 mapped
      · cases found
  have frees : Wp (fun memo => memo = fails) (deallocuvm d oldsz newsz) vm _ _ := deallocuvm_wp bound
  obtain ⟨sz, ⟨next, _⟩, ran, ⟨same, after⟩, rfl⟩ :=
    (frees.stops fun _ _ halts => halts.wrong proper).total rfl
  rw [ran, same, Nat.min_eq_right less.le, ← dealloc_present present, ← after]

/-- Returning, `deallocuvm` has released the range exactly if no page that it skips is mapped. -/
theorem deallocuvm_releases_iff (fails : List Bool) (present : vm.dirs d = some dir) (wf : dir.Wf)
    (less : newsz < oldsz) (bound : oldsz ≤ KERNBASE) :
    ((∀ page entry, pageUp newsz ≤ page → page * PGSIZE < oldsz → dir.entry page = some entry →
      vm.link.Valid entry.frame) → ∃ next, deallocuvm d oldsz newsz (vm, fails) = .ok newsz next) ∧
    ∀ sz next, deallocuvm d oldsz newsz (vm, fails) = .ok sz next →
      (Released vm d oldsz newsz dir next.1 ↔ ∀ page, pageUp newsz ≤ page → page * PGSIZE < oldsz →
        dir.Missed (pageUp newsz) page → dir.entry page = none) := by
  refine ⟨fun valid => ⟨_, deallocuvm_runs bound less fails present valid⟩, fun sz next ran => ?_⟩
  have frees : Wp (fun _ => True) (deallocuvm d oldsz newsz) vm _ _ := deallocuvm_wp bound
  obtain ⟨⟨_, after⟩, _⟩ := frees.returned trivial ran
  rw [after, dealloc_present present]
  exact drop_released bound less wf

end Deallocation

/-- A directory without the first page table, and a page in the second. -/
def gapDir : Pgdir where
  table := update (fun _ => none) 1 (some 0x201)
  entry := update (fun _ => none) 1024 (some (userEntry 0x202))

def gapVm : Vm where
  link := sampleLink
  free := []
  dirs := update (fun _ => none) 0x200 (some gapDir)

theorem gapDir_wf : gapDir.Wf := by
  intro page mapped
  by_cases here : page = 1024
  · rw [here]
    rfl
  · simp [gapDir, update_of_ne here] at mapped

theorem gapDir_entry (page : Nat) (entry : Entry) (mapped : gapDir.entry page = some entry) :
    page = 1024 ∧ entry = userEntry 0x202 := by
  by_cases here : page = 1024
  · rw [here] at mapped
    exact ⟨here, (Option.some.inj mapped).symm⟩
  · simp [gapDir, update_of_ne here] at mapped

theorem deallocuvm_releases_gap : ∃ next, deallocuvm 0x200 (1025 * PGSIZE) 0 (gapVm, []) = .ok 0 next ∧
    Released gapVm 0x200 (1025 * PGSIZE) 0 gapDir next.1 := by
  obtain ⟨returns, released⟩ :=
    deallocuvm_releases_iff [] (rfl : gapVm.dirs 0x200 = some gapDir) gapDir_wf
      (by decide : 0 < 1025 * PGSIZE) (by decide)
  obtain ⟨next, ran⟩ := returns fun page entry _ _ mapped => by
    rw [(gapDir_entry page entry mapped).2]
    exact ⟨by decide, by decide⟩
  refine ⟨next, ran, (released 0 next ran).mpr fun page _ _ missed => ?_⟩
  have := missed.1
  simp [pageUp, PGSIZE] at this

/-- Shrinking to one page, `deallocuvm` goes on from page 1 to page 1025. -/
theorem deallocuvm_skips_page : ∃ next dir, deallocuvm 0x200 (1026 * PGSIZE) PGSIZE (gapVm, []) = .ok PGSIZE next ∧
    next.1.dirs 0x200 = some dir ∧ dir.entry 1024 = some (userEntry 0x202) ∧
    ¬ Released gapVm 0x200 (1026 * PGSIZE) PGSIZE gapDir next.1 := by
  have ran := deallocuvm_runs (by decide) (by decide : PGSIZE < 1026 * PGSIZE) []
    (rfl : gapVm.dirs 0x200 = some gapDir) fun page entry _ _ mapped => by
      rw [(gapDir_entry page entry mapped).2]
      exact ⟨by decide, by decide⟩
  have only : freed gapDir (1026 * PGSIZE) PGSIZE = [.page 1025] := by decide +kernel
  refine ⟨_, _, ran, drop_dir, ?_, fun released => ?_⟩
  · rw [only]
    rfl
  · have unmapped := (drop_released (by decide) (by decide) gapDir_wf).mp released 1024 (by decide) (by decide)
      ⟨by decide, fun index low high => ?_⟩
    · cases unmapped
    · have first : index = 0 := by
        have : (1024 : Nat) / NPTENTRIES = 1 := by decide
        have : pageUp PGSIZE / NPTENTRIES = 0 := by decide
        omega
      rw [first]
      rfl

end Xv6Dedup.Paging
