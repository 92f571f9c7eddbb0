import Xv6Dedup.Paging.Programs
import Xv6Dedup.Paging.Supply

/-!
# Processes and their directories

What the calls keep: no frame is used twice, and, as long as no `kalloc` fails and no
process asks for size zero, every process has a directory of its own whose user
pages are those below its size.
-/

set_option autoImplicit false

namespace Xv6Dedup.Paging

open Function Program

def copyPanics : List Stop :=
  [.panic "copyuvm: pte should exist", .panic "copyuvm: page not present"]

/-- Between calls no frame is used twice, and sizes stay below the kernel half. -/
structure Vm.Sound (vm : Vm) : Prop where
  owns : vm.Owns []
  bound : ∀ pid task, vm.tasks pid = some task → task.sz ≤ KERNBASE

/-- Each process has its own directory, with the pages below its size. -/
structure Vm.Sized (vm : Vm) : Prop where
  apart : ∀ pid other task found, vm.tasks pid = some task → vm.tasks other = some found →
    task.pgdir = found.pgdir → pid = other
  covers : ∀ pid task, vm.tasks pid = some task → vm.Covers task.pgdir (pageUp task.sz)

section Processes

variable {vm next : Vm} {loose : List Nat} {d page frame : Nat} {dir : Pgdir} {task : Task} {n : Int}

theorem yields {α : Type} {program : VmM α} {Post : α → Vm → Prop} {Stops : Stop → Vm → Prop}
    (correct : Wp (fun _ : List Bool => True) program vm Post Stops) : Yields program vm Post :=
  correct.stops fun _ _ _ => trivial

variable {pid : Fin NPROC}

theorem taskAt_wp {Hidden : List Bool → Prop} : Wp Hidden (taskAt pid) vm
    (fun task next => next = vm ∧ vm.tasks pid = some task)
    (fun reason next => next = vm ∧ reason = .undefined "process" ∧ vm.tasks pid = none) := by
  refine Wp.see ?_
  cases present : vm.tasks pid with
  | none => exact Wp.throw ⟨rfl, rfl, rfl⟩
  | some task => exact Wp.pure ⟨rfl, rfl⟩

theorem Vm.Sound.update {task : Option Task} {start : Vm} (sound : start.Sound)
    (same : vm.tasks = start.tasks) (owns : (vm.setTask pid task).Owns [])
    (bound : ∀ changed, task = some changed → changed.sz ≤ KERNBASE) : (vm.setTask pid task).Sound := by
  refine ⟨owns, fun other found present => ?_⟩
  by_cases here : other = pid
  · subst here
    simp only [Vm.setTask, update_self] at present
    exact bound found present
  · simp only [Vm.setTask, update_of_ne here, same] at present
    exact sound.bound other found present

theorem Vm.Sound.beside (sound : vm.Sound) (owns : next.Owns []) (same : next.tasks = vm.tasks) :
    next.Sound := ⟨owns, fun pid task present => sound.bound pid task (same ▸ present)⟩

theorem Vm.Sized.used (sized : vm.Sized) (present : vm.tasks pid = some task) : vm.dirs task.pgdir ≠ none := by
  obtain ⟨dir, found, _⟩ := sized.covers pid task present
  rw [found]
  nofun

theorem Vm.Sized.carry (sized : vm.Sized)
    (before : ∀ pid found, next.tasks pid = some found → ∃ task, vm.tasks pid = some task ∧
      found.pgdir = task.pgdir ∧ found.sz = task.sz ∧ next.dirs task.pgdir = vm.dirs task.pgdir) : next.Sized := by
  refine ⟨fun one two first second isFirst isSecond same => ?_, fun pid found present => ?_⟩
  · obtain ⟨task, present, pgdir, _⟩ := before one first isFirst
    obtain ⟨other, known, otherPgdir, _⟩ := before two second isSecond
    exact sized.apart one two task other present known (pgdir.symm.trans (same.trans otherPgdir))
  · obtain ⟨task, known, pgdir, sz, same⟩ := before pid found present
    rw [pgdir, sz]
    exact (sized.covers pid task known).kept same

theorem Vm.Sized.kept (sized : vm.Sized) (tasks : next.tasks = vm.tasks)
    (dirs : ∀ pid task, vm.tasks pid = some task → next.dirs task.pgdir = vm.dirs task.pgdir) : next.Sized := by
  refine sized.carry fun pid task present => ?_
  rw [tasks] at present
  exact ⟨task, present, rfl, rfl, dirs pid task present⟩

theorem Vm.Sized.update (sized : vm.Sized) (tasks : next.tasks = update vm.tasks pid (some task))
    (covers : next.Covers task.pgdir (pageUp task.sz))
    (others : ∀ other found, other ≠ pid → vm.tasks other = some found → found.pgdir ≠ task.pgdir ∧ next.dirs found.pgdir = vm.dirs found.pgdir) :
    next.Sized := by
  have split (other : Fin NPROC) (found : Task) (present : next.tasks other = some found) :
      other = pid ∧ found = task ∨ other ≠ pid ∧ vm.tasks other = some found := by
    rw [tasks] at present
    by_cases here : other = pid
    · rw [here, update_self] at present
      exact .inl ⟨here, (Option.some.inj present).symm⟩
    · rw [update_of_ne here] at present
      exact .inr ⟨here, present⟩
  refine ⟨fun one two first second isFirst isSecond same => ?_, fun other found present => ?_⟩
  · rcases split one first isFirst with ⟨rfl, rfl⟩ | ⟨oneApart, before⟩
    · rcases split two second isSecond with ⟨rfl, rfl⟩ | ⟨twoApart, before⟩
      · rfl
      · exact absurd same.symm (others two second twoApart before).1
    · rcases split two second isSecond with ⟨rfl, rfl⟩ | ⟨_, second⟩
      · exact absurd same (others one first oneApart before).1
      · exact sized.apart one two _ _ before second same
  · rcases split other found present with ⟨rfl, rfl⟩ | ⟨otherApart, before⟩
    · exact covers
    · exact (sized.covers other found before).kept (others other found otherApart before).2

theorem Unmapped.absurd {reason : Stop} (unmapped : Unmapped vm d page reason) (present : vm.dirs d = some dir)
    (wf : dir.Wf) (mapped : (dir.entry page).isSome) : False := by
  cases unmapped with
  | gone missing => exact nomatch missing.symm.trans present
  | table again missing =>
    cases present.symm.trans again
    have table := wf page mapped
    rw [missing] at table
    cases table
  | entry again missing =>
    cases present.symm.trans again
    rw [missing] at mapped
    cases mapped

/-- With all pages of the parent mapped, a copy does not stop for a missing one. -/
theorem DuplicatesStop.reason {pgdir sz : Nat} {reason : Stop} {Hidden : List Bool → Prop}
    (stops : DuplicatesStop Hidden pgdir sz vm reason next) (owns : vm.Owns loose) (bound : sz ≤ KERNBASE)
    (covers : vm.Covers pgdir (pageUp sz)) : reason ∉ copyPanics := by
  have common {wrong : Prop} {middle : Vm} (halts : Halts wrong middle reason next) : reason ∉ copyPanics := by
    have member := halts.reason
    simp only [memoryStops, List.mem_cons, List.not_mem_nil, or_false] at member
    rcases member with rfl | rfl | rfl | rfl <;> decide
  cases stops with
  | free _ _ halts => exact common halts
  | @copy d middle setsUp stops =>
    cases stops with
    | enter _ _ _ halts => exact common halts
    | @source stop _ before rounds unmapped =>
      obtain ⟨dir, present, maps⟩ := covers
      have first := setsUp.made owns
      have used : vm.dirs pgdir ≠ none := by rw [present]; nofun
      have apart : pgdir ≠ d := fun same => used (same ▸ first.fresh d rfl)
      have still : next.dirs pgdir = some dir :=
        ((rounds.copied.beside.dirs pgdir apart).trans (first.kept pgdir used)).trans present
      have mapped := (maps.user stop (before.trans_le (pageUp_le_kern bound))).mpr before
      exact (unmapped.absurd still maps.wf mapped).elim

theorem pass_keeps (pid : Fin NPROC) (task : Task) : (task.pass pid).kstack = task.kstack ∧
    (task.pass pid).sz = task.sz ∧ (task.pass pid).pgdir = task.pgdir := by
  unfold Task.pass
  split <;> exact ⟨rfl, rfl, rfl⟩

section

variable (sound : vm.Sound)
include sound

theorem Vm.Sound.pass (pid : Fin NPROC) :
    Vm.Sound { vm with tasks := fun other => (vm.tasks other).map (Task.pass pid) } := by
  constructor
  · refine Owned.forget sound.owns fun place x held => ?_
    cases place with
    | inside e part => exact held
    | pipe p => exact held
    | stack other =>
      simp only [Vm.occupant, Option.map_map] at held ⊢
      rwa [show (fun task => task.kstack) ∘ Task.pass pid = fun task : Task => task.kstack from
        funext fun task => (pass_keeps pid task).1] at held
  · intro other task present
    obtain ⟨before, found, rfl⟩ := Option.map_eq_some_iff.mp present
    rw [(pass_keeps pid before).2.1]
    exact sound.bound other before found

/-- The call is not a `sbrk` that asks for size zero. -/
def Vm.Leaves (vm : Vm) (pid : Fin NPROC) (call : Call) : Prop :=
  match call with
  | .sbrk n => ∀ task, vm.tasks pid = some task → task.sz + n ≠ 0
  | _ => True

end

end Processes

end Xv6Dedup.Paging
