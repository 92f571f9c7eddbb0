import Xv6Dedup.Sleeping.Model

/-!
# What the accesses come to

One rule for each access that branches: a relation between the kernel and the
next point holds after the access when it holds at the end of every branch.
-/

set_option autoImplicit false

namespace Xv6Dedup.Sleeping

open Monitor

variable {R : Kernel → Point → Prop} {k : Kernel} {p : Slot}

theorem ensures_ite {c : Prop} [Decidable c] {a b : Kernel × Point} (yes : c → R a.1 a.2)
    (no : ¬ c → R b.1 b.2) : R (if c then a else b).1 (if c then a else b).2 := by
  split
  · exact yes ‹c›
  · exact no ‹¬ c›

theorem ensures_goto {c : Prop} [Decidable c] {a b : Point} (yes : c → R k a)
    (no : ¬ c → R k b) : R k (if c then a else b) := by
  split
  · exact yes ‹c›
  · exact no ‹¬ c›

theorem bgetSearch_ensures {sector : Nat × Nat} (taken : ∀ b, (k.bufs b).busy = true → R k (.bgetSleep sector b))
    (hit : ∀ b, (k.bufs b).busy = false → R (k.setBuf b { k.bufs b with busy := true }) .bcacheLeave)
    (recycled : ∀ b, (k.bufs b).busy = false →
      R (k.setBuf b { busy := true, valid := false, dirty := false, sector := some sector }) .bcacheLeave)
    (none : R k (.panicked (some .bcache))) : R (bgetSearch sector k).1 (bgetSearch sector k).2 := by
  unfold bgetSearch
  split
  · rename_i b found
    refine ensures_ite (taken b) fun free => hit b (by simpa using free)
  · split
    · rename_i b found
      have free := List.find?_some found
      exact recycled b (by simp at free; exact free.1)
    · exact none

theorem ideintrTake_ensures (idle : R k .ideLeave) (done : ∀ b rest, k.idequeue = b :: rest →
      R { k.setBuf b { k.bufs b with valid := true, dirty := false } with idequeue := rest }
        (.ideintrWake b)) : R (ideintrTake k).1 (ideintrTake k).2 := by
  unfold ideintrTake
  split
  · exact idle
  · rename_i b rest queue
    exact done b rest queue

theorem writeFill_ensures {call : Write} {i : Nat} (gives : (i : Int) < call.n → (k.pipes call.pipe).full →
      (k.pipes call.pipe).readopen = false ∨ (k.procs p).killed = true → R k (.pipeLeave call.pipe))
    (full : (k.pipes call.pipe).full → (k.pipes call.pipe).readopen = true →
      (k.procs p).killed = false → R k (.writeFull call i)) (stores : (i : Int) < call.n → ¬ (k.pipes call.pipe).full →
      R (k.setPipe call.pipe ((k.pipes call.pipe).store (p, k.started p) (call.addr i))) (.writeFill call (i + 1)))
    (ends : R k (.writeWake call)) : R (writeFill p call i k).1 (writeFill p call i k).2 := by
  refine ensures_ite (fun more => ensures_ite (fun isFull => ensures_ite (gives more isFull)
    fun goesOn => ?_) (stores more)) fun _ => ends
  push Not at goesOn
  exact full isFull (by simpa using goesOn.1) (by simpa using goesOn.2)

theorem readTest_ensures {q : Nat} {n : Int} (dead : R k (.pipeLeave q))
    (waits : (k.pipes q).empty → (k.pipes q).writeopen = true → (k.procs p).killed = false → R k (.readSleep q n))
    (takes : R k (.readTake q n 0)) : R (readTest p q n k).1 (readTest p q n k).2 := by
  refine ensures_ite (fun isEmpty => ensures_ite (fun _ => dead) fun alive => ?_) fun _ => takes
  exact waits isEmpty.1 isEmpty.2 (by simpa using alive)

theorem readTake_ensures {q : Nat} {n : Int} {i : Nat}
    (takes : ¬ (k.pipes q).empty → R (k.setPipe q (k.pipes q).take) (.readTake q n (i + 1)))
    (ends : R k (.readWake q)) : R (readTake q n i k).1 (readTake q n i k).2 := by
  exact ensures_ite (fun some => takes some.2) fun _ => ends

theorem consoleTest_ensures {target n : Int} (ends : R k .inputLeave)
    (waits : k.input.r = k.input.w → (k.procs p).killed = false → R k (.consoleSleep target n))
    (reads : k.input.r ≠ k.input.w → R { k with input := { k.input with r := k.input.r + 1 } } .inputLeave ∧
      R { k with input := { k.input with r := k.input.r + 1 } } (.consoleTest target (n - 1))) :
    R (consoleTest p target n k).1 (consoleTest p target n k).2 := by
  refine ensures_ite (fun _ => ends) fun _ => ensures_ite (fun isEmpty => ?_) fun some => ?_
  · exact ensures_ite (fun _ => ends) fun alive => waits isEmpty (by simpa using alive)
  · obtain ⟨leaves, goesOn⟩ := reads some
    refine ensures_ite (fun _ => ensures_ite (fun _ => ends) fun _ => leaves) fun _ => ?_
    exact ensures_goto (fun _ => leaves) fun _ => goesOn

theorem consoleintrPut_ensures {typed : List Byte} (ends : R k .inputLeave)
    (wakes : ∀ c rest, (typeChar c k.input).2 = true →
      R { k with input := (typeChar c k.input).1 } (.consoleintrWake rest))
    (goesOn : ∀ c rest, (typeChar c k.input).2 = false →
      R { k with input := (typeChar c k.input).1 } (.consoleintrPut rest)) :
    R (consoleintrPut k typed).1 (consoleintrPut k typed).2 := by
  cases typed with
  | nil => exact ends
  | cons c rest =>
    exact ensures_goto (wakes c rest) fun silent => goesOn c rest (by simpa using silent)

theorem sleepTest_ensures {n ticks0 : BitVec 32} (ends : R k .ticksLeave)
    (waits : (k.ticks - ticks0).toNat < n.toNat → (k.procs p).killed = false →
      R k (.sleepSleep n ticks0)) : R (sleepTest p n ticks0 k).1 (sleepTest p n ticks0 k).2 := by
  refine ensures_ite (fun early => ensures_ite (fun _ => ends) fun alive => ?_) fun _ => ends
  exact waits early (by simpa using alive)

/-- The points of `log.c`, `fs.c`, `bio.c` and `ide.c`. -/
def Point.storage : Point → Bool
  | .beginEnter | .beginTest | .beginSleep | .beginLeave | .commitEnter | .commitClear
  | .commitWake | .commitLeave | .igetEnter _ | .igetTake _ | .icacheLeave | .forget _
  | .ilockCheck _ | .ilockEnter _ | .ilockTest _ | .ilockSleep _ | .iunlockCheck _
  | .iunlockEnter _ | .iunlockClear _ | .iunlockWake _ | .iputEnter _ _ | .iputTest _ _
  | .iputTrunc _ | .iputAgain _ | .iputClear _ | .iputWake _ | .iputDrop _ | .bgetEnter _
  | .bgetSearch _ | .bgetSleep _ _ | .bcacheLeave | .brelseCheck _ | .brelseEnter _
  | .brelseClear _ | .brelseWake _ | .dirty _ | .iderwCheck _ | .iderwEnter _ | .iderwQueue _
  | .iderwTest _ | .iderwSleep _ | .ideLeave | .user | .panicked _ => true
  | _ => false

theorem storage_ensures {point : Point} (storage : point.storage = true) (outside : point ≠ .user)
    (ends : ∀ k' point', k'.procs = k.procs → k'.pipes = k.pipes → k'.started = k.started →
      k'.calls = k.calls → point'.storage = true → R k' point') : (procCode p point).Ensures point k R := by
  have plain {point' : Point} (isStorage : point'.storage = true) : R k point' :=
    ends k point' rfl rfl rfl rfl isStorage
  cases point with
  | user => exact absurd rfl outside
  | beginTest | ilockTest i => exact ensures_ite (fun _ => plain rfl) fun _ => ends _ _ rfl rfl rfl rfl rfl
  | ilockCheck i | iunlockCheck i | brelseCheck b | iderwCheck b | iderwTest b =>
    exact ensures_goto (fun _ => plain rfl) fun _ => plain rfl
  | iputTest i frees =>
    exact ensures_ite (fun _ => ensures_ite (fun _ => plain rfl) fun _ =>
      ends _ _ rfl rfl rfl rfl rfl) fun _ => plain rfl
  | bgetSearch sector =>
    exact bgetSearch_ensures (fun _ _ => plain rfl) (fun _ _ => ends _ _ rfl rfl rfl rfl rfl)
      (fun _ _ => ends _ _ rfl rfl rfl rfl rfl) (plain rfl)
  | panicked held => exact fun _ never => nomatch never
  | _ => first | exact ends _ _ rfl rfl rfl rfl rfl | cases storage

/-! ## Sections under `ptable.lock` -/

theorem waitSection_cases (p : Slot) (k : Kernel) : (∃ q, IsZombieChild k.procs p q ∧
      waitSection p k = { data := k.setProc q {}, wakes := fun _ _ => false, next := some .user }) ∨
    (∀ q, ¬ IsZombieChild k.procs p q) ∧ (waitSection p k).data = k ∧ (waitSection p k).wakes = (fun _ _ => false) ∧
      ((waitSection p k).next = none ∨ (waitSection p k).next = some .user) := by
  unfold waitSection
  split
  · rename_i q found
    exact .inl ⟨q, by simpa using List.find?_some found, rfl⟩
  · rename_i missing
    refine .inr ⟨fun q zombie => ?_, rfl, rfl, ?_⟩
    · simpa [zombie] using List.find?_eq_none.mp missing q (Process.mem_slots q)
    · split
      · exact .inl rfl
      · exact .inr rfl

theorem waitSection_ensures {point : Point}
    (reaps : ∀ q, IsZombieChild k.procs p q → R (k.setProc q {}) .user) (sleeps : R k point)
    (leaves : R k .user) : R (waitSection p k).data ((waitSection p k).next.getD point) := by
  rcases waitSection_cases p k with ⟨q, zombie, is⟩ | ⟨_, data, _, next | next⟩
  · rw [is]
    exact reaps q zombie
  · rw [data, next]
    exact sleeps
  · rw [data, next]
    exact leaves

theorem forkSection_ensures {point : Point}
    (finds : ∀ np, (k.procs np).life = .unused → R (forkRun p np k) .user) (fails : R k .user) :
    R (forkSection p k).data ((forkSection p k).next.getD point) := by
  unfold forkSection
  split
  · rename_i np found
    exact finds np (by simpa using List.find?_some found)
  · exact fails

end Xv6Dedup.Sleeping
