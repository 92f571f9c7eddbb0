import Xv6Dedup.System.Effects

/-!
# Making pipes

`pipe` either leaves the kernel as it was, up to the contents of unused file
structures, or adds a page with its two ends.
-/

set_option autoImplicit false

namespace Xv6Dedup

open Program
open Function (update update_comm update_eq_self update_idem update_of_ne update_self)

section Pipes

variable {state next : State}

theorem filealloc_exact : Wp (fun _ => True) filealloc state (fun allocated next => match allocated with
      | none => next = state
      | some f => (state.ftable f).ref = 0 ∧
          next = state.setFile f { state.ftable f with ref := 1 })
    (fun reason _ => reason ≠ outsideTrans) := by
  refine Wp.see ?_
  cases present : (List.finRange NFILE).find? fun f => decide ((state.ftable f).ref = 0) with
  | none => exact Wp.pure rfl
  | some f =>
    have unused : (state.ftable f).ref = 0 := by simpa using List.find?_some present
    exact Wp.set (Wp.pure ⟨unused, rfl⟩)

variable {f : Fin NFILE}

theorem fileclose_last (ref : (state.ftable f).ref = 1) :
    (state.ftable f).type = .none → Wp (fun _ => True) (fileclose f) state
      (fun _ next => next = state.setFile f { state.ftable f with ref := 0, type := .none })
      (fun reason _ => reason ≠ outsideTrans) := by
  intro type
  refine Wp.peek ?_
  refine Wp.guard (by decide) fun _ => Wp.ite (fun more => ?_) fun _ => ?_
  · omega
  · rw [type]
    exact Wp.set (Wp.pure rfl)

theorem fileclose_pipe {pipe : Pipe} (ref : (state.ftable f).ref = 1) (type : (state.ftable f).type = .pipe)
    (present : state.pipes (state.ftable f).pipe = some pipe) : Wp (fun _ => True) (fileclose f) state
      (fun _ next => next = (state.setFile f { state.ftable f with ref := 0, type := .none }).setPipe
        (state.ftable f).pipe
        (if (pipe.shut (state.ftable f).writable).readopen = false ∧
            (pipe.shut (state.ftable f).writable).writeopen = false then none
          else some (pipe.shut (state.ftable f).writable)))
      (fun reason _ => reason ≠ outsideTrans) := by
  refine Wp.peek ?_
  refine Wp.guard (by decide) fun _ => Wp.ite (fun more => ?_) fun _ => ?_
  · omega
  · rw [type]
    refine Wp.set (Wp.see ?_)
    have still : (state.setFile f { state.ftable f with ref := 0, type := .none }).pipes
        (state.ftable f).pipe = some pipe := present
    rw [still]
    exact Wp.change rfl

def readEnd (file : File) (p : Nat) : File :=
  { file with ref := 1, type := .pipe, readable := true, writable := false, pipe := p }

def writeEnd (file : File) (p : Nat) : File :=
  { file with ref := 1, type := .pipe, readable := false, writable := true, pipe := p }

/-- The kernel with a pipe on page `p` between two file structures. -/
def State.withPipe (state : State) (p : Nat) (f0 f1 : Fin NFILE) : State :=
  ((state.setPipe p (some {})).setFile f0 (readEnd (state.ftable f0) p)).setFile f1 (writeEnd (state.ftable f1) p)

private theorem setFile_twice (f : Fin NFILE) (first second : File) :
    (state.setFile f first).setFile f second = state.setFile f second := by
  simp only [State.setFile, update_idem]

private theorem setFile_ftable (f : Fin NFILE) (file : File) : (state.setFile f file).ftable f = file := by
  simp only [State.setFile, update_self]

private theorem setFile_other {f g : Fin NFILE} (other : g ≠ f) (file : File) :
    (state.setFile f file).ftable g = state.ftable g := by
  simp only [State.setFile, update_of_ne other]

private theorem closed_allocated (closed : state.Closed) (f : Fin NFILE) :
    (state.setFile f { state.ftable f with ref := 1 }).Closed := by
  have carried : Carried state 0 state.log.busy (state.setFile f { state.ftable f with ref := 1 }) :=
    carried_refile rfl rfl fun _ zero => absurd zero (by simp)
  exact carried.closed closed

theorem fileclose_allocated (closed : state.Closed) (unused : (state.ftable f).ref = 0) :
    Wp (fun _ => True) (fileclose f) (state.setFile f { state.ftable f with ref := 1 })
      (fun _ next => next = state) (fun reason _ => reason ≠ outsideTrans) := by
  have type := closed f unused
  have same : { state.ftable f with ref := 0, type := .none } = state.ftable f := by
    rw [← unused, ← type]
  refine (fileclose_last ?_ ?_).post ?_
  · rw [setFile_ftable]
  · rw [setFile_ftable]
    exact type
  · rintro _ next rfl
    rw [setFile_twice, setFile_ftable, same]
    simp only [State.setFile, update_eq_self]

theorem pipealloc_wp (closed : state.Closed) (page : Option Nat) : TransWp (pipealloc page) state
      (fun allocated next => match allocated with
        | none => next = state
        | some (f0, f1) => f0 ≠ f1 ∧ (state.ftable f0).ref = 0 ∧ (state.ftable f1).ref = 0 ∧
            ∃ p, page = some p ∧ next = state.withPipe p f0 f1) := by
  refine Wp.seq filealloc_exact fun first one => ?_
  cases first with
  | none => exact fun same => Wp.pure same
  | some f0 =>
    rintro ⟨firstUnused, rfl⟩
    refine Wp.seq filealloc_exact fun second two => ?_
    cases second with
    | none =>
      rintro rfl
      exact Wp.seq (fileclose_allocated closed firstUnused) fun _ _ same => Wp.pure same
    | some f1 =>
      rintro ⟨secondUnused, rfl⟩
      have apart : f0 ≠ f1 := by
        rintro rfl
        rw [setFile_ftable] at secondUnused
        cases secondUnused
      have secondFile : (state.setFile f0 { state.ftable f0 with ref := 1 }).ftable f1 =
          state.ftable f1 := setFile_other (Ne.symm apart) _
      have unused : (state.ftable f1).ref = 0 := secondFile ▸ secondUnused
      cases page with
      | none =>
        -- closing the second file structure first or last makes no difference
        have swapped : ((state.setFile f0 { state.ftable f0 with ref := 1 }).setFile f1
            { (state.setFile f0 { state.ftable f0 with ref := 1 }).ftable f1 with ref := 1 }) =
            (state.setFile f1 { state.ftable f1 with ref := 1 }).setFile f0
              { (state.setFile f1 { state.ftable f1 with ref := 1 }).ftable f0 with ref := 1 } := by
          rw [secondFile, setFile_other apart]
          simp only [State.setFile, update_comm apart]
        have firstFile : (state.setFile f1 { state.ftable f1 with ref := 1 }).ftable f0 =
            state.ftable f0 := setFile_other apart _
        have twoClosed := closed_allocated closed f1
        have firstStill : ((state.setFile f1 { state.ftable f1 with ref := 1 }).ftable f0).ref = 0 := by
          rw [firstFile]
          exact firstUnused
        rw [swapped]
        refine Wp.seq (fileclose_allocated twoClosed firstStill) ?_
        rintro _ _ rfl
        exact Wp.seq (fileclose_allocated closed unused) fun _ _ same => Wp.pure same
      | some p =>
        refine Wp.set (Wp.peek ?_)
        refine Wp.set (Wp.peek ?_)
        refine Wp.set (Wp.pure ⟨apart, firstUnused, unused, p, rfl, ?_⟩)
        simp only [State.withPipe, State.setPipe, State.setFile, readEnd, writeEnd,
          update_self, update_of_ne (Ne.symm apart),
          update_comm apart, update_idem]

/-- The kernel is as it was, up to the contents of unused file structures. -/
structure Refiled (state next : State) : Prop where
  rest : next = { state with ftable := next.ftable }
  files : ∀ f, next.ftable f = state.ftable f ∨
    (state.ftable f).ref = 0 ∧ (next.ftable f).ref = 0 ∧ (next.ftable f).type = .none

section

variable (refiled : Refiled state next)
include refiled

theorem Refiled.type (closed : state.Closed) (f : Fin NFILE) : (next.ftable f).type = (state.ftable f).type ∧
      ((state.ftable f).type ≠ .none → next.ftable f = state.ftable f) := by
  rcases refiled.files f with same | ⟨unused, _, none⟩
  · rw [same]
    exact ⟨rfl, fun _ => rfl⟩
  · have type := closed f unused
    exact ⟨none.trans type.symm, fun other => absurd type other⟩

theorem Refiled.ref (f : Fin NFILE) : (next.ftable f).ref = (state.ftable f).ref := by
  rcases refiled.files f with same | ⟨unused, zero, _⟩
  · rw [same]
  · rw [unused, zero]

theorem Refiled.closed (closed : state.Closed) : next.Closed := by
  intro f unused
  rw [(refiled.type closed f).1]
  exact closed f (refiled.ref f ▸ unused)

theorem Refiled.on (closed : state.Closed) (f : Fin NFILE) (slot : Slot) :
    (next.ftable f).on slot = (state.ftable f).on slot := by
  obtain ⟨type, same⟩ := refiled.type closed f
  by_cases none : (state.ftable f).type = .none
  · simp only [File.on, type, none, reduceCtorEq, false_and, if_false]
  · rw [same none]

theorem Refiled.carried (closed : state.Closed) : Carried state 0 state.log.busy next where
  cwd := by rw [refiled.rest]
  logging := by rw [refiled.rest]
  closed := refiled.closed
  balance slot := by
    have refs : next.icache = state.icache := by rw [refiled.rest]
    unfold State.balance
    rw [refs, Pi.zero_apply, add_zero]
    exact congrArg _ (Finset.sum_congr rfl fun f _ => refiled.on closed f slot)

end

theorem fdalloc_some {ofile changed : Ofile} {fd : Fin NOFILE} (allocated : fdalloc ofile f = some (changed, fd)) :
    ofile fd = none ∧ changed = update ofile fd (some f) := by
  unfold fdalloc at allocated
  cases present : (List.finRange NOFILE).find? fun fd => (ofile fd).isNone with
  | none => simp [present] at allocated
  | some free =>
    simp only [present, Option.map_some, Option.some.injEq, Prod.mk.injEq] at allocated
    obtain ⟨rfl, rfl⟩ := allocated
    have accepted := List.find?_some present
    exact ⟨Option.isNone_iff_eq_none.mp accepted, rfl⟩

private theorem close_both {p : Nat} {f0 f1 : Fin NFILE} (apart : f0 ≠ f1)
    (firstUnused : (state.ftable f0).ref = 0) (secondUnused : (state.ftable f1).ref = 0)
    (free : state.pipes p = none) :
    TransWp (do
        fileclose f0
        fileclose f1) (state.withPipe p f0 f1)
      (fun _ => Refiled state) := by
  have first : (state.withPipe p f0 f1).ftable f0 = readEnd (state.ftable f0) p := by
    simp only [State.withPipe, State.setFile, State.setPipe, update_self, update_of_ne apart]
  have second : (state.withPipe p f0 f1).ftable f1 = writeEnd (state.ftable f1) p := by
    simp only [State.withPipe, State.setFile, update_self]
  have page : (state.withPipe p f0 f1).pipes p = some {} := by
    simp only [State.withPipe, State.setFile, State.setPipe, update_self]
  have firstPage : (state.withPipe p f0 f1).pipes ((state.withPipe p f0 f1).ftable f0).pipe = some {} := by
    rw [first]
    exact page
  refine Wp.seq (fileclose_pipe (by rw [first]; rfl) (by rw [first]; rfl) firstPage) ?_
  rintro _ middle shut
  have secondFile : middle.ftable f1 = writeEnd (state.ftable f1) p := by
    rw [shut, ← second]
    simp only [State.setPipe, State.setFile, update_of_ne (Ne.symm apart)]
  have secondPage : middle.pipes (middle.ftable f1).pipe = some { readopen := false } := by
    rw [secondFile, shut, first]
    simp only [State.setPipe, writeEnd, readEnd, update_self]
    rfl
  refine (fileclose_pipe (by rw [secondFile]; rfl) (by rw [secondFile]; rfl) secondPage).post ?_
  rintro _ next closing
  rw [secondFile, shut, first] at closing
  refine ⟨?_, fun f => ?_⟩
  · rw [closing]
    simp only [State.setPipe, State.setFile, State.withPipe, readEnd, writeEnd, Pipe.shut,
      update_idem, if_true, and_self]
    rw [← free, update_eq_self]
  · rw [closing]
    simp only [State.setPipe, State.setFile, State.withPipe]
    by_cases last : f = f1
    · subst last
      refine .inr ⟨secondUnused, ?_, ?_⟩ <;> rw [update_self]
    · rw [update_of_ne last]
      by_cases start : f = f0
      · subst start
        refine .inr ⟨firstUnused, ?_, ?_⟩ <;> rw [update_self]
      · rw [update_of_ne start, update_of_ne last, update_of_ne start]
        exact .inl rfl

/-- The descriptors and the kernel after `pipe`. -/
inductive Piped (state : State) (ofile : Ofile) : (changed : Ofile) → (result : Int) → State → Prop
  | failed {next : State} (refiled : Refiled state next) : Piped state ofile ofile (-1) next
  | made {p : Nat} {f0 f1 : Fin NFILE} {fd0 fd1 : Fin NOFILE} (apart : f0 ≠ f1)
      (firstUnused : (state.ftable f0).ref = 0) (secondUnused : (state.ftable f1).ref = 0)
      (page : state.pipes p = none) (firstFree : ofile fd0 = none)
      (secondFree : update ofile fd0 (some f0) fd1 = none) :
      Piped state ofile (update (update ofile fd0 (some f0)) fd1 (some f1)) 0 (state.withPipe p f0 f1)

theorem sys_pipe_wp (closed : state.Closed) (ofile : Ofile) (fetched : Bool) {page : Option Nat}
    (free : ∀ p, page = some p → state.pipes p = none) : TransWp (sys_pipe ofile fetched page) state
      (fun (changed, result) next => Piped state ofile changed result next) := by
  have unchanged : Refiled state state := ⟨rfl, fun _ => .inl rfl⟩
  refine Wp.ite (fun _ => Wp.pure (.failed unchanged)) fun _ => ?_
  refine Wp.seq (pipealloc_wp closed page) fun allocated next => ?_
  cases allocated with
  | none =>
    rintro rfl
    exact Wp.pure (.failed unchanged)
  | some ends =>
    obtain ⟨rf, wf⟩ := ends
    rintro ⟨apart, firstUnused, secondUnused, p, given, rfl⟩
    have unused := free p given
    have undo : ∀ changed : Ofile, changed = ofile → TransWp (do
        fileclose rf
        fileclose wf
        pure (changed, (-1 : Int))) (state.withPipe p rf wf)
        (fun result => Piped state ofile result.1 result.2) := by
      rintro changed rfl
      have closing := close_both apart firstUnused secondUnused unused
      have assoc : (do
          fileclose rf
          fileclose wf
          pure (changed, (-1 : Int)) : FsM (Ofile × Int)) = ((do
            fileclose rf
            fileclose wf) >>= fun _ => pure (changed, -1)) := (bind_assoc _ _ _).symm
      rw [assoc]
      exact Wp.seq closing fun _ _ refiled => Wp.pure (.failed refiled)
    cases first : fdalloc ofile rf with
    | none =>
      simp only [first]
      exact undo ofile rfl
    | some descriptor =>
      obtain ⟨one, fd0⟩ := descriptor
      obtain ⟨firstFree, rfl⟩ := fdalloc_some first
      simp only [first]
      cases second : fdalloc (update ofile fd0 (some rf)) wf with
      | none =>
        refine undo _ ?_
        rw [update_idem, ← firstFree, update_eq_self]
      | some descriptor =>
        obtain ⟨both, fd1⟩ := descriptor
        obtain ⟨secondFree, rfl⟩ := fdalloc_some second
        exact Wp.pure (.made apart firstUnused secondUnused unused firstFree secondFree)

theorem Piped.carried {ofile changed : Ofile} {result : Int} (closed : state.Closed)
    (piped : Piped state ofile changed result next) : Carried state 0 state.log.busy next := by
  cases piped with
  | failed refiled => exact refiled.carried closed
  | @made p f0 f1 _ _ apart firstUnused secondUnused _ _ _ =>
    have quiet : ∀ {f : Fin NFILE}, (state.ftable f).ref = 0 → ∀ slot, (state.ftable f).on slot = 0 := by
      intro f unused slot
      simp only [File.on, closed f unused, reduceCtorEq, false_and, if_false]
    have paged : Carried state 0 state.log.busy (state.setPipe p (some {})) :=
      ⟨rfl, rfl, id, fun _ => (add_zero _).symm⟩
    have first : Carried (state.setPipe p (some {})) 0 state.log.busy
        ((state.setPipe p (some {})).setFile f0 (readEnd (state.ftable f0) p)) := by
      refine carried_setFile (fun slot => ?_) fun _ zero => ?_
      · exact ((sub_zero _).trans (quiet firstUnused slot)).symm
      · cases zero
    have second : Carried ((state.setPipe p (some {})).setFile f0 (readEnd (state.ftable f0) p)) 0
        state.log.busy (state.withPipe p f0 f1) := by
      refine carried_setFile (fun slot => ?_) fun _ zero => ?_
      · rw [setFile_other (Ne.symm apart)]
        exact ((sub_zero _).trans (quiet secondUnused slot)).symm
      · cases zero
    exact (paged.same first).same second

end Pipes

end Xv6Dedup
