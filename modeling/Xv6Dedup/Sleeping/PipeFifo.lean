import Xv6Dedup.Sleeping.Rules

/-!
# A pipe hands on what it gets

Along every run of the kernel, the bytes delivered by `piperead` followed by the
bytes still in the buffer are the bytes stored by `pipewrite`, in order, and what
a call of `pipewrite` has stored is the beginning of its argument. The counters
`nread` and `nwrite` may wrap.
-/

set_option autoImplicit false

namespace Xv6Dedup.Sleeping

open Function Monitor

/-- The call of `pipewrite` a process is in, and how many of its bytes are stored. -/
def Point.writing : Point → Option (Write × Nat)
  | .writeFill call i | .writeFull call i | .writeSleep call i => some (call, i)
  | _ => none

variable {point : Point}

theorem Point.writing_of_isCall (call : point.isCall = true) : point.writing = none := by
  cases point <;> first | rfl | cases call

theorem Point.writing_of_storage (storage : point.storage = true) : point.writing = none := by
  cases point <;> first | rfl | cases storage

theorem Point.writing_of_isInterrupt (interrupt : point.isInterrupt = true) : point.writing = none := by
  cases point <;> first | rfl | cases interrupt

inductive Piping (agent : Agent) (point : Point) (k : Kernel) : Kernel → Point → Prop
  | apart {k' : Kernel} {point' : Point} : k'.pipes = k.pipes → k'.started = k.started →
      k'.calls = k.calls → point'.writing = none ∨ point'.writing = point.writing →
      Piping agent point k k' point'
  | start {p : Slot} {call : Write} : agent = .proc p →
      Piping agent point k (writeStart p call k) (.writeFill call 0)
  | store {p : Slot} {call : Write} {i : Nat} : agent = .proc p →
      point.writing = some (call, i) → (i : Int) < call.n → ¬ (k.pipes call.pipe).full →
      Piping agent point k (k.setPipe call.pipe ((k.pipes call.pipe).store (p, k.started p) (call.addr i)))
        (.writeFill call (i + 1))
  | take {q : Nat} {point' : Point} : ¬ (k.pipes q).empty → point'.writing = none →
      Piping agent point k (k.setPipe q (k.pipes q).take) point'
  | close {q : Nat} {writable : Bool} {point' : Point} : point'.writing = none →
      Piping agent point k (k.setPipe q ((k.pipes q).close writable)) point'

theorem Piping.of_interrupt (cpu : Nat) (point : Point) (k : Kernel) :
    (interruptCode point).Ensures point k (Piping (.interrupt cpu) point k) := by
  have idle {k' : Kernel} {point' : Point} (pipes : k'.pipes = k.pipes)
      (started : k'.started = k.started) (calls : k'.calls = k.calls)
      (none : point'.writing = none) : Piping (.interrupt cpu) point k k' point' :=
    .apart pipes started calls (.inl none)
  cases point with
  | user => exact fun _ chosen => idle rfl rfl rfl (Point.writing_of_isInterrupt chosen)
  | ideintrTake => exact ideintrTake_ensures (idle rfl rfl rfl rfl) fun _ _ _ => idle rfl rfl rfl rfl
  | consoleintrPut typed =>
    exact consoleintrPut_ensures (idle rfl rfl rfl rfl) (fun _ _ _ => idle rfl rfl rfl rfl)
      fun _ _ _ => idle rfl rfl rfl rfl
  | _ => first | exact idle rfl rfl rfl rfl | exact fun _ never => nomatch never

theorem Piping.of_process (p : Slot) (point : Point) (k : Kernel) :
    (procCode p point).Ensures point k (Piping (.proc p) point k) := by
  have idle {k' : Kernel} {point' : Point} (pipes : k'.pipes = k.pipes)
      (started : k'.started = k.started) (calls : k'.calls = k.calls)
      (none : point'.writing = none) : Piping (.proc p) point k k' point' :=
    .apart pipes started calls (.inl none)
  have apart {point' : Point} (none : point'.writing = none) :
      Piping (.proc p) point k k point' := idle rfl rfl rfl none
  cases point with
  | user => exact fun _ chosen => apart (Point.writing_of_isCall chosen)
  | writeStart call => exact .start rfl
  | writeFill call i =>
    exact writeFill_ensures (fun _ _ _ => apart rfl)
      (fun _ _ _ => .apart rfl rfl rfl (.inr rfl)) (.store rfl rfl) (apart rfl)
  | writeFull call i | writeSleep call i => exact .apart rfl rfl rfl (.inr rfl)
  | readTest q n => exact readTest_ensures (apart rfl) (fun _ _ _ => apart rfl) (apart rfl)
  | readTake q n i => exact readTake_ensures (fun some => .take some rfl) (apart rfl)
  | closeSet q writable => exact .close rfl
  | gone | exit => exact ensures_goto (fun _ => apart rfl) fun _ => apart rfl
  | consoleTest target n =>
    exact consoleTest_ensures (apart rfl) (fun _ _ => apart rfl) fun _ => ⟨idle rfl rfl rfl rfl, idle rfl rfl rfl rfl⟩
  | sleepTest n ticks0 => exact sleepTest_ensures (apart rfl) fun _ _ => apart rfl
  | wait => exact waitSection_ensures (fun _ _ => idle rfl rfl rfl rfl) (apart rfl) (apart rfl)
  | fork => exact forkSection_ensures (fun _ _ => idle rfl rfl rfl rfl) (apart rfl)
  | _ => first
      | exact idle rfl rfl rfl rfl
      | exact fun _ never => nomatch never
      | exact storage_ensures rfl nofun fun _ _ _ pipes started calls storage =>
        idle pipes started calls (Point.writing_of_storage storage)

/-! ## The invariant -/

/-- What a call of `pipewrite` has stored in a pipe. -/
def Pipe.bytesOf (pipe : Pipe) (call : Slot × Nat) : List Byte :=
  (pipe.stored.filter fun stored => stored.1 = call).map Prod.snd

/-- The bytes from `nread` to `nwrite`. -/
def Pipe.buffered (pipe : Pipe) : List Byte := pipe.ring.contents PIPESIZE

def Write.bytesTo (call : Write) (q : Nat) : List Byte := if call.pipe = q then call.bytes else []

structure Pipe.Fifo (pipe : Pipe) : Prop where
  count : (pipe.nwrite - pipe.nread).toNat ≤ PIPESIZE
  order : pipe.delivered ++ pipe.buffered = pipe.stored.map Prod.snd

variable {pipe : Pipe}

theorem Pipe.Fifo.store (fifo : pipe.Fifo) (room : ¬ pipe.full) (call : Slot × Nat) (byte : Byte) :
    (pipe.store call byte).Fifo := by
  have less : pipe.ring.count < PIPESIZE := by
    refine Nat.lt_of_le_of_ne fifo.count fun isFull => room ?_
    exact (Ring.full_iff (by decide) pipe.ring).mpr isFull
  constructor
  · change (pipe.ring.store PIPESIZE byte).count ≤ PIPESIZE
    rw [Ring.count_store (Nat.lt_of_le_of_lt less (by decide))]
    exact less
  · have contents : (pipe.store call byte).buffered = pipe.buffered ++ [byte] :=
      Ring.contents_store (by decide) (by decide) less byte
    rw [contents, ← List.append_assoc]
    change (pipe.delivered ++ pipe.buffered) ++ [byte] = (pipe.stored ++ [(call, byte)]).map Prod.snd
    rw [fifo.order, List.map_append]
    rfl

theorem Pipe.Fifo.take (fifo : pipe.Fifo) (some : ¬ pipe.empty) : pipe.take.Fifo := by
  have positive : pipe.ring.count ≠ 0 := fun none => some ((Ring.empty_iff pipe.ring).mpr none)
  constructor
  · have bound : pipe.ring.count ≤ PIPESIZE := fifo.count
    rw [← Ring.count_rest positive] at bound
    exact Nat.le_of_succ_le bound
  · have order : pipe.delivered ++ pipe.ring.contents PIPESIZE = _ := fifo.order
    rw [Ring.contents_rest (by decide) positive, ← List.singleton_append, ← List.append_assoc] at order
    exact order

theorem Pipe.Fifo.close (fifo : pipe.Fifo) (writable : Bool) : (pipe.close writable).Fifo := by
  cases writable with
  | true | false => exact ⟨fifo.count, fifo.order⟩

structure Piped (s : System) : Prop where
  fifo : ∀ q, (s.data.pipes q).Fifo
  sent : ∀ q call, (s.data.pipes q).bytesOf call <+: (s.data.calls call.1 call.2).bytesTo q
  fresh : ∀ q p number, s.data.started p < number → (s.data.pipes q).bytesOf (p, number) = []
  current : ∀ p call i, (s.point (.proc p)).writing = some (call, i) → s.data.calls p (s.data.started p) = call ∧
      (s.data.pipes call.pipe).bytesOf (p, s.data.started p) = (List.range i).map call.addr

theorem bytesOf_store (pipe : Pipe) (call other : Slot × Nat) (byte : Byte) : (pipe.store call byte).bytesOf other =
      if call = other then pipe.bytesOf other ++ [byte] else pipe.bytesOf other := by
  change ((pipe.stored ++ [(call, byte)]).filter _).map _ = _
  split
  · rename_i same
    simp [Pipe.bytesOf, same]
  · rename_i different
    simp [Pipe.bytesOf, different]

theorem bytesOf_take (pipe : Pipe) (call : Slot × Nat) : pipe.take.bytesOf call = pipe.bytesOf call := rfl

theorem bytesOf_close (pipe : Pipe) (writable : Bool) (call : Slot × Nat) :
    (pipe.close writable).bytesOf call = pipe.bytesOf call := by
  cases writable <;> rfl

theorem Write.bytesTo_self (call : Write) : call.bytesTo call.pipe = call.bytes := if_pos rfl

variable {call : Write}

theorem Write.bytes_next {i : Nat} (more : (i : Int) < call.n) :
    (List.range i).map call.addr ++ [call.addr i] <+: call.bytes := by
  have below : i + 1 ≤ call.n.toNat := by omega
  have taken : (List.range i).map call.addr ++ [call.addr i] = (List.range (i + 1)).map call.addr := by
    rw [List.range_succ, List.map_append]
    rfl
  rw [taken]
  refine List.IsPrefix.map call.addr ?_
  rw [← Nat.min_eq_left below, ← List.take_range]
  exact List.take_prefix ..

section Step

variable {s next : System} {agent : Agent}

theorem Piped.of_kept (piped : Piped s) (fifo : ∀ q, (next.data.pipes q).Fifo)
    (bytes : ∀ q call, (next.data.pipes q).bytesOf call = (s.data.pipes q).bytesOf call)
    (started : next.data.started = s.data.started) (calls : next.data.calls = s.data.calls)
    (writing : ∀ p, (next.point (.proc p)).writing = none ∨
      (next.point (.proc p)).writing = (s.point (.proc p)).writing) : Piped next := by
  refine ⟨fifo, fun q call => ?_, fun q p number later => ?_, fun p call i is => ?_⟩
  · rw [bytes, calls]
    exact piped.sent q call
  · rw [bytes]
    rw [started] at later
    exact piped.fresh q p number later
  · rcases writing p with none | same
    · exact absurd (none.symm.trans is) nofun
    · rw [bytes, started, calls]
      exact piped.current p call i (same.symm.trans is)

theorem Piped.start {p : Slot} (piped : Piped s) (data : next.data = writeStart p call s.data)
    (here : next.point (.proc p) = .writeFill call 0)
    (there : ∀ q, q ≠ p → next.point (.proc q) = s.point (.proc q)) : Piped next := by
  have pipes : next.data.pipes = s.data.pipes := by rw [data]; rfl
  have other {q : Slot} (different : q ≠ p) :
      next.data.started q = s.data.started q ∧ next.data.calls q = s.data.calls q := by
    rw [data]
    exact ⟨update_of_ne different .., update_of_ne different ..⟩
  have started : next.data.started p = s.data.started p + 1 := by
    rw [data]
    exact update_self ..
  have calls : next.data.calls p = update (s.data.calls p) (s.data.started p + 1) call := by
    rw [data]
    exact update_self ..
  have unused (q : Nat) : (s.data.pipes q).bytesOf (p, s.data.started p + 1) = [] :=
    piped.fresh q p _ (Nat.lt_succ_self _)
  refine ⟨fun q => pipes ▸ piped.fifo q, fun q tag => ?_, fun q p' number later => ?_, fun p' call' i is => ?_⟩
  · rw [pipes]
    obtain ⟨p', number⟩ := tag
    by_cases same : p' = p
    · subst same
      rw [calls]
      by_cases new : number = s.data.started p' + 1
      · rw [new, unused q]
        exact List.nil_prefix
      · rw [update_of_ne new]
        exact piped.sent q (p', number)
    · rw [(other same).2]
      exact piped.sent q (p', number)
  · rw [pipes]
    by_cases same : p' = p
    · subst same
      rw [started] at later
      exact piped.fresh q p' number (Nat.lt_of_succ_lt later)
    · rw [(other same).1] at later
      exact piped.fresh q p' number later
  · rw [pipes]
    by_cases same : p' = p
    · subst same
      rw [here] at is
      cases is
      rw [started, calls, update_self]
      exact ⟨rfl, unused _⟩
    · rw [(other same).1, (other same).2]
      exact piped.current p' call' i (there p' same ▸ is)

theorem Piped.store {p : Slot} {i : Nat} (piped : Piped s)
    (writing : (s.point (.proc p)).writing = some (call, i)) (more : (i : Int) < call.n)
    (room : ¬ (s.data.pipes call.pipe).full) (data : next.data = s.data.setPipe call.pipe
      ((s.data.pipes call.pipe).store (p, s.data.started p) (call.addr i)))
    (here : next.point (.proc p) = .writeFill call (i + 1))
    (there : ∀ q, q ≠ p → next.point (.proc q) = s.point (.proc q)) : Piped next := by
  obtain ⟨isCurrent, stored⟩ := piped.current p call i writing
  have started : next.data.started = s.data.started := by rw [data]; rfl
  have calls : next.data.calls = s.data.calls := by rw [data]; rfl
  have pipe : next.data.pipes call.pipe = (s.data.pipes call.pipe).store (p, s.data.started p) (call.addr i) := by
    rw [data]
    exact update_self ..
  have elsewhere {q : Nat} (different : q ≠ call.pipe) : next.data.pipes q = s.data.pipes q := by
    rw [data]
    exact update_of_ne different ..
  have mine : (next.data.pipes call.pipe).bytesOf (p, s.data.started p) =
      (List.range i).map call.addr ++ [call.addr i] := by
    rw [pipe, bytesOf_store, if_pos rfl, stored]
  have others {q : Nat} {tag : Slot × Nat} (different : tag ≠ (p, s.data.started p)) :
      (next.data.pipes q).bytesOf tag = (s.data.pipes q).bytesOf tag := by
    by_cases same : q = call.pipe
    · rw [same, pipe, bytesOf_store, if_neg different.symm]
    · rw [elsewhere same]
  refine ⟨fun q => ?_, fun q tag => ?_, fun q p' number later => ?_, fun p' call' j is => ?_⟩
  · by_cases same : q = call.pipe
    · rw [same, pipe]
      exact (piped.fifo call.pipe).store room _ _
    · rw [elsewhere same]
      exact piped.fifo q
  · rw [calls]
    by_cases same : tag = (p, s.data.started p)
    · by_cases there : q = call.pipe
      · rw [same, there, mine]
        rw [isCurrent, Write.bytesTo_self]
        exact Write.bytes_next more
      · rw [elsewhere there]
        exact piped.sent q tag
    · rw [others same]
      exact piped.sent q tag
  · rw [started] at later
    rw [others fun same => ?_]
    · exact piped.fresh q p' number later
    · cases same
      exact Nat.lt_irrefl _ later
  · rw [started, calls]
    by_cases same : p' = p
    · subst same
      rw [here] at is
      cases is
      refine ⟨isCurrent, mine.trans ?_⟩
      rw [List.range_succ, List.map_append]
      rfl
    · rw [others fun is => same (congrArg Prod.fst is)]
      exact piped.current p' call' j (there p' same ▸ is)

theorem Piped.step (piped : Piped s) (step : Step code s agent next) : Piped next := by
  have ensures : (code agent (s.point agent)).Ensures (s.point agent) s.data (Piping agent (s.point agent) s.data) := by
    cases agent with
    | proc p => exact Piping.of_process p _ _
    | interrupt cpu => exact Piping.of_interrupt cpu _ _
  obtain ⟨point, points, does⟩ := step.ensured (.apart rfl rfl rfl (.inr rfl)) ensures
  have there {q : Slot} (different : Agent.proc q ≠ agent) : next.point (.proc q) = s.point (.proc q) := by
    rw [points, update_of_ne different]
  have here {q : Slot} (same : Agent.proc q = agent) : next.point (.proc q) = point := by
    rw [points, same, update_self]
  have quiet (idle : point.writing = none ∨ point.writing = (s.point agent).writing) (q : Slot) :
      (next.point (.proc q)).writing = none ∨ (next.point (.proc q)).writing = (s.point (.proc q)).writing := by
    by_cases same : Agent.proc q = agent
    · rw [here same, same]
      exact idle
    · exact .inr (by rw [there same])
  generalize after : next.data = k' at does
  cases does with
  | apart pipes started calls idle =>
    subst after
    exact piped.of_kept (fun q => pipes ▸ piped.fifo q) (fun q call => by rw [pipes]) started calls (quiet idle)
  | start is =>
    exact piped.start after (here is.symm)
      fun q different => there fun same => different (Agent.proc.inj (same.trans is))
  | store is writing more room =>
    subst is
    exact piped.store writing more room after (here rfl)
      fun q different => there fun same => different (Agent.proc.inj same)
  | @take q _ some idle =>
    refine piped.of_kept (fun q' => ?_) (fun q' call => ?_) (by rw [after]; rfl)
      (by rw [after]; rfl) (quiet (.inl idle))
    · rw [after]
      exact (forall_update_iff _ fun _ (pipe : Pipe) => pipe.Fifo).mpr
        ⟨(piped.fifo q).take some, fun q' _ => piped.fifo q'⟩ q'
    · rw [after]
      exact (forall_update_iff _ fun q' (pipe : Pipe) => pipe.bytesOf call =
        (s.data.pipes q').bytesOf call).mpr ⟨bytesOf_take .., fun _ _ => rfl⟩ q'
  | @close q writable _ idle =>
    refine piped.of_kept (fun q' => ?_) (fun q' call => ?_) (by rw [after]; rfl)
      (by rw [after]; rfl) (quiet (.inl idle))
    · rw [after]
      exact (forall_update_iff _ fun _ (pipe : Pipe) => pipe.Fifo).mpr
        ⟨(piped.fifo q).close writable, fun q' _ => piped.fifo q'⟩ q'
    · rw [after]
      exact (forall_update_iff _ fun q' (pipe : Pipe) => pipe.bytesOf call =
        (s.data.pipes q').bytesOf call).mpr ⟨bytesOf_close .., fun _ _ => rfl⟩ q'

end Step

theorem Pipe.fifo_fresh : ({} : Pipe).Fifo where
  count := by decide
  order := List.eq_nil_of_length_eq_zero (Ring.length_contents.trans (by decide))

theorem piped_boot : Piped boot where
  fifo _ := Pipe.fifo_fresh
  sent _ _ := List.nil_prefix
  fresh _ _ _ _ := rfl
  current p call i is := by
    unfold boot at is
    dsimp only at is
    split at is <;> cases is

theorem piped_of_run {Meets : System → Agent → Prop} {s : System} (run : Run code Meets boot s) : Piped s := by
  induction run with
  | start => exact piped_boot
  | step _ _ step ih => exact ih.step step

/-- In every state the kernel reaches, a pipe holds at most `PIPESIZE` bytes, what
has been read followed by what it holds is what has been written, and what a call
of `pipewrite` has written is the beginning of its argument. -/
theorem pipe_is_fifo {s : System} (run : Run code (fun _ _ => True) boot s) (q : Nat) :
    ((s.data.pipes q).nwrite - (s.data.pipes q).nread).toNat ≤ PIPESIZE ∧
    (s.data.pipes q).delivered ++ (s.data.pipes q).buffered = (s.data.pipes q).stored.map Prod.snd ∧
    (s.data.pipes q).buffered.length = ((s.data.pipes q).nwrite - (s.data.pipes q).nread).toNat ∧
    ∀ p number, (s.data.pipes q).bytesOf (p, number) <+: (s.data.calls p number).bytesTo q := by
  have piped := piped_of_run run
  exact ⟨(piped.fifo q).count, (piped.fifo q).order, Ring.length_contents, fun p number => piped.sent q (p, number)⟩

/-- `initproc` has stored the one byte of its call. -/
theorem pipe_is_fifo_byte : ∃ s : System, Run code (fun _ _ => True) boot s ∧
    (s.data.pipes 0).stored.map Prod.snd = [7] ∧
    (s.data.pipes 0).delivered ++ (s.data.pipes 0).buffered = (s.data.pipes 0).stored.map Prod.snd := by
  have go {s next : System} {agent : Agent} (run : Run code (fun _ _ => True) boot s)
      (step : Step code s agent next) : Run code (fun _ _ => True) boot next := .step run trivial step
  have chosen := go .start (@Step.choose _ _ _ _ _ _ _ code boot (.proc initproc) _
      (.writeEnter ⟨0, fun _ => 7, 1⟩) rfl rfl rfl)
  have entered := go chosen (.acquire (p := .proc initproc) rfl rfl rfl)
  have started := go entered (.access (p := .proc initproc) rfl rfl)
  have run := go started (.access (p := .proc initproc) rfl rfl)
  exact ⟨_, run, rfl, (pipe_is_fifo run 0).2.1⟩

end Xv6Dedup.Sleeping
