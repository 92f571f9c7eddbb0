import Xv6Dedup.Paging.Growth

/-!
# What `exec` writes

While a program is loaded, bytes are stored to pages that `allocuvm` has mapped
for it, unless a segment ends beyond the 32-bit addresses.
-/

set_option autoImplicit false

namespace Xv6Dedup.Paging

open Program

/-- Nothing is loaded: no store, only more mappings by `allocuvm`. -/
structure Unloaded (vm next : Vm) : Prop where
  stores : next.stores = vm.stores
  grants : vm.grants <:+ next.grants
  starved : vm.starved = true → next.starved = true

theorem Unloaded.refl (vm : Vm) : Unloaded vm vm := ⟨rfl, List.suffix_refl _, id⟩

theorem Unloaded.trans {vm middle next : Vm} (first : Unloaded vm middle)
    (second : Unloaded middle next) : Unloaded vm next :=
  ⟨second.stores.trans first.stores, first.grants.trans second.grants, second.starved ∘ first.starved⟩

/-- A page of a new directory that `allocuvm` has mapped to a free frame. -/
structure Granted (start : Vm) (added : List (Nat × Nat × Nat)) (store : Nat × Nat × Nat) :
    Prop where
  member : store ∈ added
  fresh : start.dirs store.1 = none
  low : store.2.1 < KERNPAGE
  free : store.2.2 ∈ start.free

def Confined (start next : Vm) : Prop :=
  ∃ added, next.grants = added ++ start.grants ∧
    ∀ store ∈ next.stores, store ∈ start.stores ∨ Granted start added store

/-- The stores are confined, unless a `kalloc` failed. -/
def Safe (start next : Vm) : Prop := next.starved = true ∨ Confined start next

/-- The user pages of the directory are pages to which may be stored. -/
structure Prepared (start : Vm) (d : Nat) (vm : Vm) : Prop where
  fresh : start.dirs d = none
  free : vm.free ⊆ start.free
  entries : ∃ added, vm.grants = added ++ start.grants ∧
    (∀ store ∈ vm.stores, store ∈ start.stores ∨ Granted start added store) ∧
    ∀ dir page entry, vm.dirs d = some dir → page < KERNPAGE → dir.entry page = some entry →
      Granted start added (d, page, entry.frame)

section Loading

variable {Hidden : List Bool → Prop} {start vm next : Vm} {d page frame oldsz newsz sz : Nat}
  {dir : Pgdir} {content : List Byte} {reason : Stop}

theorem Draws.unloaded (draws : Draws d vm next) : Unloaded vm next :=
  ⟨draws.stores, draws.grants, draws.beside.starved⟩

theorem Halts.unloaded {wrong : Prop} (halts : Halts wrong vm reason next) : Unloaded vm next := by
  obtain ⟨_, _, _, _, rfl⟩ := halts
  exact ⟨rfl, List.suffix_refl _, id⟩

theorem GrowsStop.unloaded {last : Nat} (stops : GrowsStop Hidden d oldsz newsz page last vm reason next) :
    Unloaded vm next := by
  cases stops with
  | enter _ rounds pool halts => exact (rounds.grown.trans (draws_fill d pool)).unloaded.trans halts.unloaded
  | free _ rounds _ halts => exact (rounds.grown.trans (draws_starved d _)).unloaded.trans halts.unloaded

theorem dealloc_unloaded : Unloaded vm (vm.dealloc d oldsz newsz) := by
  unfold Vm.dealloc
  split <;> exact ⟨rfl, List.suffix_refl _, id⟩

theorem Expands.unloaded (expands : Expands Hidden d oldsz newsz vm sz next) : Unloaded vm next := by
  cases expands with
  | large | less => exact .refl vm
  | more _ _ grows =>
    cases grows with
    | done rounds => exact rounds.grown.unloaded
    | short _ rounds => exact (rounds.grown.trans (draws_starved d _)).unloaded.trans dealloc_unloaded

theorem Granted.more {added more : List (Nat × Nat × Nat)} {store : Nat × Nat × Nat}
    (granted : Granted start added store) : Granted start (more ++ added) store :=
  { granted with member := List.mem_append_right _ granted.member }

theorem Confined.refl (start : Vm) : Confined start start := ⟨[], rfl, fun _ => .inl⟩

theorem Prepared.confined (prepared : Prepared start d vm) : Confined start vm := by
  obtain ⟨added, grants, stores, _⟩ := prepared.entries
  exact ⟨added, grants, stores⟩

theorem Confined.unloaded (confined : Confined start vm) (unloaded : Unloaded vm next) : Confined start next := by
  obtain ⟨added, grants, stores⟩ := confined
  obtain ⟨more, extended⟩ := unloaded.grants
  refine ⟨more ++ added, ?_, fun store member => ?_⟩
  · rw [← extended, grants, List.append_assoc]
  · rw [unloaded.stores] at member
    exact (stores store member).imp id Granted.more

theorem Safe.unloaded (safe : Safe start vm) (unloaded : Unloaded vm next) : Safe start next :=
  safe.imp unloaded.starved fun confined => confined.unloaded unloaded

theorem SetsUp.prepared {loose : List Nat} (setsUp : SetsUp Hidden vm (some d) next) (owns : vm.Owns loose) :
    Prepared vm d next := by
  obtain ⟨e, draws, same⟩ := setsUp.draws
  obtain ⟨known, present, maps⟩ := setsUp.covers
  obtain ⟨more, extended⟩ := draws.grants
  refine ⟨(setsUp.made owns).fresh d rfl, draws.free.subset, more, extended.symm, fun store member => ?_, ?_⟩
  · rw [draws.stores] at member
    exact .inl member
  · intro dir page entry found low mapped
    cases present.symm.trans found
    exact absurd ((maps.user page low).mp (by rw [mapped]; rfl)) (Nat.not_lt_zero _)

theorem Enters.grants {entry : Entry} {mapped : Bool} (enters : Enters Hidden d page entry vm mapped next) :
    next.grants = vm.grants := by
  cases enters with
  | starved => rfl
  | set tabled => cases tabled <;> rfl

theorem GrowRound.prepared (round : GrowRound Hidden d page vm next) (low : page < KERNPAGE)
    (prepared : Prepared start d vm) : Prepared start d next := by
  have within : next.free ⊆ start.free := fun _ member => prepared.free (round.draws.free.subset member)
  have same := round.draws.stores
  obtain ⟨pool, enters⟩ := round
  rename_i frame rest mapped middle
  obtain ⟨added, grants, stores, known⟩ := prepared.entries
  obtain ⟨dir, present⟩ := enters.present
  obtain ⟨changed, after, origin⟩ := enters.entries present
  have list : middle.grants = added ++ start.grants := enters.grants.trans grants
  cases mapped with
  | false =>
    refine ⟨prepared.fresh, within, added, list, fun store member => stores store (same ▸ member), ?_⟩
    intro _ other entry found small entered
    cases after.symm.trans found
    exact known dir other entry present small ((origin other entry entered).resolve_left nofun)
  | true =>
    have more {store : Nat × Nat × Nat} (granted : Granted start added store) :
        Granted start ((d, page, frame) :: added) store :=
      { granted with member := List.mem_cons_of_mem _ granted.member }
    refine ⟨prepared.fresh, within, (d, page, frame) :: added, congrArg _ list, fun store member =>
      (stores store (same ▸ member)).imp id more, ?_⟩
    intro _ other entry found small entered
    cases after.symm.trans found
    rcases origin other entry entered with ⟨_, rfl, rfl⟩ | before
    · exact ⟨List.mem_cons_self, prepared.fresh, low, prepared.free (pool ▸ List.mem_cons_self)⟩
    · exact more (known dir other entry present small before)

theorem Expands.prepared (expands : Expands Hidden d oldsz newsz vm sz next)
    (prepared : vm.starved = true ∨ Prepared start d vm) : next.starved = true ∨ Prepared start d next := by
  refine prepared.elim (fun starved => .inl (expands.unloaded.starved starved)) fun prepared => ?_
  cases expands with
  | large | less => exact .inr prepared
  | more below _ grows =>
    cases grows with
    | short => exact .inl (dealloc_unloaded.starved rfl)
    | done rounds =>
      refine .inr (rounds.keeps (fun _ => Prepared start d) (fun page _ _ inside round =>
        round.prepared ?_) prepared)
      exact inside.trans_le (pageUp_le_kern (Nat.le_of_lt below))

/-! ## Segments -/

theorem loadPage_prepared {read : Int × List Byte} (prepared : Prepared start d vm)
    (present : vm.dirs d = some dir) (low : page < KERNPAGE) (mapped : (dir.entry page).isSome) :
    Prepared start d (vm.loadPage d dir page read) := by
  obtain ⟨entry, mapped⟩ := Option.isSome_iff_exists.mp mapped
  obtain ⟨added, grants, stores, known⟩ := prepared.entries
  refine ⟨prepared.fresh, prepared.free, added, grants, fun store member => ?_, known⟩
  simp only [Vm.loadPage, Vm.fill] at member
  split at member
  · rcases List.mem_cons.mp member with rfl | member
    · rw [Pgdir.frameOf, mapped]
      exact .inr (known dir page entry present low mapped)
    · exact stores store member
  · exact stores store member

/-- The pages of a segment lie below the size. -/
theorem segment_pages {vaddr filesz memsz k : Nat} (fits : vaddr + memsz < 2 ^ 32)
    (size : filesz ≤ memsz) (below : vaddr + memsz ≤ newsz) (bound : newsz ≤ KERNBASE)
    (inside : k * PGSIZE < filesz) : pageAt vaddr k < pageUp newsz := by
  rw [← Nat.not_le, pageUp_le bound, pageAt, Nat.mod_eq_of_lt (by omega)]
  have rounded := Nat.div_mul_le_self (vaddr + k * PGSIZE) PGSIZE
  omega

theorem Loads.prepared {addr offset pages k : Nat} {outcome : Except Stop Bool}
    (loads : Loads d addr content offset sz k vm outcome next) (small : pages ≤ KERNPAGE)
    (within : ∀ k, k * PGSIZE < sz → pageAt addr k < pages) (covers : vm.Covers d pages)
    (prepared : Prepared start d vm) : Prepared start d next := by
  have store {k : Nat} {now : Vm} {dir : Pgdir} (inside : k * PGSIZE < sz) (present : now.dirs d = some dir)
      (before : now.Covers d pages ∧ Prepared start d now) :
      Prepared start d (now.loadPage d dir (pageAt addr k) (pageBytes content offset sz k)) := by
    obtain ⟨⟨other, again, maps⟩, prepared⟩ := before
    cases present.symm.trans again
    have low := within k inside
    exact loadPage_prepared prepared present (low.trans_le small) ((maps.user _ (low.trans_le small)).mpr low)
  have kept {stop : Nat} {middle : Vm} (rounds : Rounds (LoadRound d addr content offset sz) k vm stop middle) :
      middle.Covers d pages ∧ Prepared start d middle := by
    refine rounds.keeps (fun _ now => now.Covers d pages ∧ Prepared start d now)
      (fun _ now _ _ round before => ?_) ⟨covers, prepared⟩
    obtain ⟨inside, present, _⟩ := round
    exact ⟨before.1.kept rfl, store inside present before⟩
  cases loads with
  | done rounds | stop rounds => exact (kept rounds).2
  | short rounds inside present => exact store inside present (kept rounds)

def SegmentsFit (content : List Byte) : (count off : Nat) → Prop
  | 0, _ => True
  | count + 1, off =>
    (wordOf (readFile content off 32).2 0 = ELF_PROG_LOAD →
      wordOf (readFile content off 32).2 8 + wordOf (readFile content off 32).2 20 < 2 ^ 32) ∧
    SegmentsFit content count ((off + 32) % 2 ^ 32)

/-- A segment that does not wrap is stored to pages of the image. -/
theorem Loads.segment {ph : List Byte} {middle : Vm} {outcome : Except Stop Bool}
    (loads : Loads d (wordOf ph 8) content (wordOf ph 4) (wordOf ph 16) 0 middle outcome next)
    (fits : wordOf ph 8 + wordOf ph 20 < 2 ^ 32) (size : wordOf ph 16 ≤ wordOf ph 20)
    (expands : Expands Hidden d oldsz (segmentEnd ph) vm sz middle) (bound : oldsz ≤ KERNBASE)
    (nonzero : sz ≠ 0) (covers : vm.starved = true ∨ vm.Covers d (pageUp oldsz))
    (prepared : vm.starved = true ∨ Prepared start d vm) :
    next.starved = true ∨ next.Covers d (pageUp sz) ∧ Prepared start d next := by
  have small := expands.bound bound
  have same : next.starved = middle.starved ∧ next.dirs = middle.dirs := by
    obtain ⟨mem, stores, rfl⟩ := loads.frame
    exact ⟨rfl, rfl⟩
  rcases expands.prepared prepared with starved | prepared
  · exact .inl (same.1.trans starved)
  rcases expands.covers covers with starved | ⟨zero, _⟩ | ⟨covers, larger⟩
  · exact .inl (same.1.trans starved)
  · exact absurd zero nonzero
  · rw [segmentEnd, Nat.mod_eq_of_lt fits] at larger
    have within (k : Nat) (inside : k * PGSIZE < wordOf ph 16) :=
      segment_pages fits size (larger ▸ Nat.le_max_right _ _) small inside
    exact .inr ⟨covers.kept (by rw [same.2]), loads.prepared (pageUp_le_kern small) within covers prepared⟩

theorem Segments.safe {count off : Nat} {result : Except Stop (Option Nat)}
    (segments : Segments Hidden d content count off sz vm result next)
    (fit : SegmentsFit content count off) (bound : sz ≤ KERNBASE) (covers : vm.starved = true ∨ vm.Covers d (pageUp sz))
    (prepared : vm.starved = true ∨ Prepared start d vm) : Safe start next := by
  have safe {vm : Vm} (prepared : vm.starved = true ∨ Prepared start d vm) : Safe start vm :=
    prepared.imp id Prepared.confined
  induction segments with
  | done | fail => exact safe prepared
  | skip _ _ ih => exact ih fit.2 bound covers prepared
  | unmapped expands => exact safe (expands.prepared prepared)
  | halt stops => exact (safe prepared).unloaded stops.unloaded
  | unread typed size expands nonzero loads =>
    exact safe ((loads.segment (fit.1 typed) size expands bound nonzero covers prepared).imp id And.right)
  | load typed size expands nonzero loads _ ih =>
    have after := loads.segment (fit.1 typed) size expands bound nonzero covers prepared
    exact ih fit.2 (expands.bound bound) (after.imp id And.left) (after.imp id And.right)

def HeadersFit (content : List Byte) : Prop :=
  SegmentsFit content (halfOf (readFile content 0 52).2 44) (wordOf (readFile content 0 52).2 28)

/-- Nothing is loaded after the segments. -/
theorem Stacks.unloaded {phnum phoff : Nat} {result : Except Stop (Option Nat)}
    (program : Stacks Hidden d content phnum phoff vm result next) :
    ∃ result middle, Segments Hidden d content phnum phoff 0 vm result middle ∧ Unloaded middle next := by
  cases program with
  | failed segments => exact ⟨_, _, segments, .refl _⟩
  | unmapped segments expands | halt segments expands => exact ⟨_, _, segments, expands.unloaded⟩
  | unguarded segments expands halts => exact ⟨_, _, segments, expands.unloaded.trans halts.unloaded⟩
  | done segments expands =>
    exact ⟨_, _, segments, expands.unloaded.trans (draws_setDir d _ _).unloaded⟩

/-- The segments are loaded to a new directory, or nothing at all. -/
inductive Stored (Hidden : List Bool → Prop) (content : List Byte) (vm next : Vm) : Prop
  | bad (wrong : (readFile content 0 52).1 < 52 ∨ wordOf (readFile content 0 52).2 0 ≠ ELF_MAGIC)
      (unloaded : Unloaded vm next)
  | unmade {middle : Vm} (setsUp : SetsUp Hidden vm none middle) (unloaded : Unloaded vm next)
  | segments {d : Nat} {middle last : Vm} {result : Except Stop (Option Nat)}
      (setsUp : SetsUp Hidden vm (some d) middle)
      (segments : Segments Hidden d content (halfOf (readFile content 0 52).2 44)
        (wordOf (readFile content 0 52).2 28) 0 middle result last)
      (unloaded : Unloaded last next)

theorem Stored.more {last : Vm} (stored : Stored Hidden content vm next) (more : Unloaded next last) :
    Stored Hidden content vm last := by
  cases stored with
  | bad wrong unloaded => exact .bad wrong (unloaded.trans more)
  | unmade setsUp unloaded => exact .unmade setsUp (unloaded.trans more)
  | segments setsUp segments unloaded => exact .segments setsUp segments (unloaded.trans more)

theorem Builds.stored {pushed : Bool} {result : Except Stop (Option (Nat × Nat))}
    (builds : Builds Hidden content pushed vm result next) : Stored Hidden content vm next := by
  have loaded {d : Nat} {middle last : Vm} {result : Except Stop (Option Nat)}
      (setsUp : SetsUp Hidden vm (some d) middle) (program : Laid Hidden d content middle result last) :
      Stored Hidden content vm last := by
    obtain ⟨_, _, segments, unloaded⟩ := program.unloaded
    exact .segments setsUp segments unloaded
  cases builds with
  | bad wrong => exact .bad wrong (.refl vm)
  | unmade setsUp =>
    obtain ⟨_, draws, _⟩ := setsUp.draws
    exact .unmade setsUp draws.unloaded
  | halt setsUp program | done setsUp program => exact loaded setsUp program
  | undone setsUp program => exact (loaded setsUp program).more ⟨rfl, List.suffix_refl _, id⟩
  | unfreed setsUp program halts => exact (loaded setsUp program).more halts.unloaded

theorem Stored.safe {loose : List Nat} (stored : Stored Hidden content vm next) (fit : HeadersFit content)
    (owns : vm.Owns loose) : Safe vm next := by
  have safe : Safe vm vm := .inr (Confined.refl vm)
  cases stored with
  | bad _ unloaded | unmade _ unloaded => exact safe.unloaded unloaded
  | segments setsUp segments unloaded =>
    exact (segments.safe fit (Nat.zero_le _) (.inr setsUp.covers) (.inr (setsUp.prepared owns))).unloaded unloaded

end Loading

end Xv6Dedup.Paging
