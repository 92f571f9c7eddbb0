import Xv6Dedup.Paging.Size

/-!
# What loading a program does

The steps of `exec` up to the new address space, with the states in which they
return or stop.
-/

set_option autoImplicit false

namespace Xv6Dedup.Paging

open Function Program

/-- The page of byte `PGSIZE * k` of a segment. -/
def pageAt (addr k : Nat) : Nat := (addr + k * PGSIZE) % 2 ^ 32 / PGSIZE

/-- What is read from the file for that page. -/
def pageBytes (content : List Byte) (offset sz k : Nat) : Int × List Byte :=
  readFile content ((offset + k * PGSIZE) % 2 ^ 32) (min (sz - k * PGSIZE) PGSIZE)

/-- The frame to which `loaduvm` stores; an entry that is not present is zero. -/
def Pgdir.frameOf (dir : Pgdir) (page : Nat) : Nat :=
  match dir.entry page with
  | none => 0
  | some entry => entry.frame

def Vm.loadPage (vm : Vm) (d : Nat) (dir : Pgdir) (page : Nat) (read : Int × List Byte) : Vm :=
  { vm.fill (dir.frameOf page) (patch (vm.mem (dir.frameOf page)) read.2) with
    stores := if 0 < read.1 then (d, page, dir.frameOf page) :: vm.stores else vm.stores }

section Loads

variable (d addr : Nat) (content : List Byte) (offset sz : Nat)

inductive LoadRound (k : Nat) (vm : Vm) : Vm → Prop
  | intro {dir : Pgdir} (inside : k * PGSIZE < sz) (present : vm.dirs d = some dir)
      (full : (pageBytes content offset sz k).1 = min (sz - k * PGSIZE) PGSIZE) :
      LoadRound k vm (vm.loadPage d dir (pageAt addr k) (pageBytes content offset sz k))

/-- The outcomes of `loaduvm`. -/
inductive Loads (k : Nat) (vm : Vm) : Except Stop Bool → Vm → Prop
  | done {last : Nat} {next : Vm} (rounds : Rounds (LoadRound d addr content offset sz) k vm last next)
      (past : sz ≤ last * PGSIZE) : Loads k vm (.ok true) next
  | short {stop : Nat} {middle : Vm} {dir : Pgdir}
      (rounds : Rounds (LoadRound d addr content offset sz) k vm stop middle)
      (inside : stop * PGSIZE < sz) (present : middle.dirs d = some dir) : Loads k vm (.ok false)
        (middle.loadPage d dir (pageAt addr stop) (pageBytes content offset sz stop))
  | stop {stop : Nat} {next : Vm} {reason : Stop}
      (rounds : Rounds (LoadRound d addr content offset sz) k vm stop next)
      (wrong : addr % PGSIZE ≠ 0 ∨ stop * PGSIZE < sz ∧ ∀ dir, next.dirs d = some dir →
        dir.table (pageAt addr stop / NPTENTRIES) = none) : Loads k vm (.error reason) next

end Loads

/-- The bytes of a program header. -/
abbrev header (content : List Byte) (off : Nat) : List Byte := (readFile content off 32).2

/-- Where a segment ends. -/
abbrev segmentEnd (ph : List Byte) : Nat := (wordOf ph 8 + wordOf ph 20) % 2 ^ 32

/-- The outcomes of the loop over the program headers. -/
inductive Segments (Hidden : List Bool → Prop) (d : Nat) (content : List Byte) :
    (count off sz : Nat) → Vm → Except Stop (Option Nat) → Vm → Prop
  | done (off sz : Nat) (vm : Vm) : Segments Hidden d content 0 off sz vm (.ok (some sz)) vm
  | fail {count off sz : Nat} {vm : Vm} (wrong : (readFile content off 32).1 ≠ 32 ∨
      wordOf (header content off) 20 < wordOf (header content off) 16) :
      Segments Hidden d content (count + 1) off sz vm (.ok none) vm
  | skip {count off sz : Nat} {vm next : Vm} {result : Except Stop (Option Nat)}
      (other : wordOf (header content off) 0 ≠ ELF_PROG_LOAD)
      (rest : Segments Hidden d content count ((off + 32) % 2 ^ 32) sz vm result next) :
      Segments Hidden d content (count + 1) off sz vm result next
  | unmapped {count off sz : Nat} {vm next : Vm}
      (expands : Expands Hidden d sz (segmentEnd (header content off)) vm 0 next) :
      Segments Hidden d content (count + 1) off sz vm (.ok none) next
  | halt {count off sz : Nat} {vm next : Vm} {reason : Stop}
      (stops : GrowsStop Hidden d sz (segmentEnd (header content off)) (pageUp sz)
        (pageUp (segmentEnd (header content off))) vm reason next) :
      Segments Hidden d content (count + 1) off sz vm (.error reason) next
  | unread {count off sz newsz : Nat} {vm middle next : Vm} {outcome : Except Stop Bool}
      {result : Except Stop (Option Nat)} (typed : wordOf (header content off) 0 = ELF_PROG_LOAD)
      (size : wordOf (header content off) 16 ≤ wordOf (header content off) 20)
      (expands : Expands Hidden d sz (segmentEnd (header content off)) vm newsz middle)
      (nonzero : newsz ≠ 0)
      (loads : Loads d (wordOf (header content off) 8) content (wordOf (header content off) 4)
        (wordOf (header content off) 16) 0 middle outcome next) (partly : outcome ≠ .ok true)
      (failed : ∀ sz, result ≠ .ok (some sz)) :
      Segments Hidden d content (count + 1) off sz vm result next
  | load {count off sz newsz : Nat} {vm middle last next : Vm} {result : Except Stop (Option Nat)}
      (typed : wordOf (header content off) 0 = ELF_PROG_LOAD)
      (size : wordOf (header content off) 16 ≤ wordOf (header content off) 20)
      (expands : Expands Hidden d sz (segmentEnd (header content off)) vm newsz middle)
      (nonzero : newsz ≠ 0)
      (loads : Loads d (wordOf (header content off) 8) content (wordOf (header content off) 4)
        (wordOf (header content off) 16) 0 middle (.ok true) last)
      (rest : Segments Hidden d content count ((off + 32) % 2 ^ 32) newsz last result next) :
      Segments Hidden d content (count + 1) off sz vm result next

def Vm.guardPage (vm : Vm) (d : Nat) (dir : Pgdir) (page : Nat) : Vm :=
  vm.setDir d (some (dir.setEntry page ((dir.entry page).map fun entry => { entry with user := false })))

/-- The outcomes of loading the program and its stack. -/
inductive Stacks (Hidden : List Bool → Prop) (d : Nat) (content : List Byte) (phnum phoff : Nat)
    (vm : Vm) : Except Stop (Option Nat) → Vm → Prop
  | failed {next : Vm} {result : Except Stop (Option Nat)}
      (segments : Segments Hidden d content phnum phoff 0 vm result next)
      (failed : ∀ sz, result ≠ .ok (some sz)) : Stacks Hidden d content phnum phoff vm result next
  | unmapped {sz : Nat} {middle next : Vm}
      (segments : Segments Hidden d content phnum phoff 0 vm (.ok (some sz)) middle)
      (expands : Expands Hidden d (pageUp sz * PGSIZE) ((pageUp sz * PGSIZE + 2 * PGSIZE) % 2 ^ 32)
        middle 0 next) : Stacks Hidden d content phnum phoff vm (.ok none) next
  | halt {sz : Nat} {middle next : Vm} {reason : Stop}
      (segments : Segments Hidden d content phnum phoff 0 vm (.ok (some sz)) middle)
      (stops : GrowsStop Hidden d (pageUp sz * PGSIZE) ((pageUp sz * PGSIZE + 2 * PGSIZE) % 2 ^ 32)
        (pageUp (pageUp sz * PGSIZE)) (pageUp ((pageUp sz * PGSIZE + 2 * PGSIZE) % 2 ^ 32)) middle reason next) :
      Stacks Hidden d content phnum phoff vm (.error reason) next
  | unguarded {sz newsz : Nat} {middle next : Vm} {reason : Stop} {wrong : Prop}
      (segments : Segments Hidden d content phnum phoff 0 vm (.ok (some sz)) middle)
      {last : Vm} (expands : Expands Hidden d (pageUp sz * PGSIZE)
        ((pageUp sz * PGSIZE + 2 * PGSIZE) % 2 ^ 32) middle newsz last)
      (halts : Halts wrong last reason next) :
      Stacks Hidden d content phnum phoff vm (.error reason) next
  | done {sz newsz : Nat} {middle last : Vm} {dir : Pgdir}
      (segments : Segments Hidden d content phnum phoff 0 vm (.ok (some sz)) middle)
      (expands : Expands Hidden d (pageUp sz * PGSIZE) ((pageUp sz * PGSIZE + 2 * PGSIZE) % 2 ^ 32)
        middle newsz last) (nonzero : newsz ≠ 0) (present : last.dirs d = some dir) :
      Stacks Hidden d content phnum phoff vm (.ok (some newsz))
        (last.guardPage d dir ((newsz - 2 * PGSIZE) / PGSIZE))

/-- The same with the headers that the file has. -/
abbrev Laid (Hidden : List Bool → Prop) (d : Nat) (content : List Byte) :
    Vm → Except Stop (Option Nat) → Vm → Prop :=
  Stacks Hidden d content (halfOf (readFile content 0 52).2 44) (wordOf (readFile content 0 52).2 28)

/-- The outcomes of building an address space. -/
inductive Builds (Hidden : List Bool → Prop) (content : List Byte) (pushed : Bool) (vm : Vm) :
    Except Stop (Option (Nat × Nat)) → Vm → Prop
  | bad (wrong : (readFile content 0 52).1 < 52 ∨ wordOf (readFile content 0 52).2 0 ≠ ELF_MAGIC) :
      Builds Hidden content pushed vm (.ok none) vm
  | unmade {next : Vm} (setsUp : SetsUp Hidden vm none next) : Builds Hidden content pushed vm (.ok none) next
  | halt {d : Nat} {middle next : Vm} {reason : Stop} (setsUp : SetsUp Hidden vm (some d) middle)
      (program : Laid Hidden d content middle (.error reason) next) :
      Builds Hidden content pushed vm (.error reason) next
  | undone {d : Nat} {middle last : Vm} {dir : Pgdir} {stacked : Option Nat}
      (setsUp : SetsUp Hidden vm (some d) middle)
      (program : Laid Hidden d content middle (.ok stacked) last)
      (present : last.dirs d = some dir) : Builds Hidden content pushed vm (.ok none) (last.discard d dir)
  | unfreed {d : Nat} {middle last next : Vm} {stacked : Option Nat} {reason : Stop} {wrong : Prop}
      (setsUp : SetsUp Hidden vm (some d) middle)
      (program : Laid Hidden d content middle (.ok stacked) last)
      (halts : Halts wrong last reason next) : Builds Hidden content pushed vm (.error reason) next
  | done {d sz : Nat} {middle next : Vm} (setsUp : SetsUp Hidden vm (some d) middle)
      (program : Laid Hidden d content middle (.ok (some sz)) next) (fits : pushed = true) :
      Builds Hidden content pushed vm (.ok (some (d, sz))) next

section Programs

variable {Hidden : List Bool → Prop} {vm next : Vm} {d addr offset sz : Nat} {content : List Byte}

variable [Supply Hidden]

end Programs

/-! ## Frames and pages of the image -/

/-- What loading into the directory leaves: with the size, if it succeeds. -/
structure Loaded (d : Nat) (vm : Vm) (loose : List Nat) (loaded : Option Nat) (next : Vm) :
    Prop where
  owns : next.Owns loose
  beside : Beside d vm next
  bound : ∀ sz, loaded = some sz → sz ≤ KERNBASE
  fits : next.starved = true ∨ ∀ sz, loaded = some sz → next.Covers d (pageUp sz)

/-- What building an image leaves: with the directory and the size, if it succeeds. -/
structure Built (vm : Vm) (loose : List Nat) (built : Option (Nat × Nat)) (next : Vm) : Prop where
  made : Made vm loose (built.map Prod.fst) next
  bound : ∀ image, built = some image → image.2 ≤ KERNBASE
  fits : next.starved = true ∨ ∀ image, built = some image → next.Covers image.1 (pageUp image.2)

section Images

variable {Hidden : List Bool → Prop} {vm middle next : Vm} {d sz : Nat} {content : List Byte} {loose : List Nat}

theorem Loads.frame {addr offset k : Nat} {outcome : Except Stop Bool}
    (loads : Loads d addr content offset sz k vm outcome next) :
    ∃ mem stores, next = { vm with mem := mem, stores := stores } := by
  have kept {stop : Nat} {middle : Vm} (rounds : Rounds (LoadRound d addr content offset sz) k vm stop middle) :
      ∃ mem stores, middle = { vm with mem := mem, stores := stores } := by
    refine rounds.keeps (fun _ now => ∃ mem stores, now = { vm with mem := mem, stores := stores })
      (fun page now later _ round before => ?_) ⟨_, _, rfl⟩
    obtain ⟨_, _, rfl⟩ := before
    cases round
    exact ⟨_, _, rfl⟩
  cases loads with
  | done rounds | stop rounds => exact kept rounds
  | short rounds =>
    obtain ⟨_, _, rfl⟩ := kept rounds
    exact ⟨_, _, rfl⟩

theorem Loaded.fail (owns : next.Owns loose) (beside : Beside d vm next) : Loaded d vm loose none next :=
  ⟨owns, beside, nofun, .inr nofun⟩

theorem Loaded.after {loaded : Option Nat} (first : Beside d vm middle)
    (second : Loaded d middle loose loaded next) : Loaded d vm loose loaded next :=
  { second with beside := first.trans second.beside }

theorem loads_beside {mem : Nat → Nat → Byte} {stores : List (Nat × Nat × Nat)} (beside : Beside d vm middle) :
    Beside d vm { middle with mem := mem, stores := stores } :=
  { beside with }

/-- The size to which a segment grows the image, and its pages. -/
theorem Expands.image {newsz : Nat} {oldsz : Nat} (expands : Expands Hidden d oldsz newsz vm sz next)
    (bound : oldsz ≤ KERNBASE) (owns : vm.Owns loose) (nonzero : sz ≠ 0)
    (fits : vm.starved = true ∨ vm.Covers d (pageUp oldsz)) : next.Owns loose ∧ Beside d vm next ∧ sz ≤ KERNBASE ∧
      (next.starved = true ∨ next.Covers d (pageUp sz) ∧ max oldsz newsz = sz) := by
  obtain ⟨owns, beside⟩ := expands.owns owns
  exact ⟨owns, beside, expands.bound bound, (expands.covers fits).imp id fun either =>
    either.resolve_left fun zero => nonzero zero.1⟩

theorem Segments.loaded {count off : Nat} {result : Except Stop (Option Nat)}
    (segments : Segments Hidden d content count off sz vm result next) (bound : sz ≤ KERNBASE)
    (owns : vm.Owns loose) (fits : vm.starved = true ∨ vm.Covers d (pageUp sz)) :
    ∀ loaded, result = .ok loaded → Loaded d vm loose loaded next := by
  induction segments with
  | done off sz vm =>
    rintro _ ⟨⟩
    refine ⟨owns, Beside.refl d vm, ?_, fits.imp id fun covers => ?_⟩
    · rintro _ ⟨⟩
      exact bound
    · rintro _ ⟨⟩
      exact covers
  | fail =>
    rintro _ ⟨⟩
    exact .fail owns (Beside.refl d _)
  | skip _ _ ih => exact ih bound owns fits
  | unmapped expands =>
    rintro _ ⟨⟩
    obtain ⟨owns, beside⟩ := expands.owns owns
    exact .fail owns beside
  | halt => nofun
  | unread _ _ expands _ loads _ failed =>
    intro loaded same
    obtain ⟨owns, beside⟩ := expands.owns owns
    obtain ⟨mem, stores, rfl⟩ := loads.frame
    cases loaded with
    | some sz => exact absurd same (failed sz)
    | none => exact .fail owns (loads_beside beside)
  | load _ _ expands nonzero loads _ ih =>
    obtain ⟨owns, beside, bound, fits⟩ := expands.image bound owns nonzero fits
    obtain ⟨mem, stores, rfl⟩ := loads.frame
    intro loaded same
    exact (ih bound owns (fits.imp id And.left) loaded same).after (loads_beside beside)

theorem pageUp_bound (bound : sz ≤ KERNBASE) : pageUp sz * PGSIZE ≤ KERNBASE := by
  simp only [pageUp, PGSIZE, KERNBASE] at bound ⊢
  omega

theorem Stacks.loaded {phnum phoff : Nat} {result : Except Stop (Option Nat)}
    (program : Stacks Hidden d content phnum phoff vm result next)
    (owns : vm.Owns loose) (fits : vm.starved = true ∨ vm.Covers d 0) :
    ∀ loaded, result = .ok loaded → Loaded d vm loose loaded next := by
  have first {result : Except Stop (Option Nat)} {middle : Vm}
      (segments : Segments Hidden d content phnum phoff 0 vm result middle) :=
    segments.loaded (Nat.zero_le _) owns fits
  cases program with
  | failed segments => exact first segments
  | unmapped segments expands =>
    rintro _ ⟨⟩
    have before := first segments _ rfl
    obtain ⟨owns, beside⟩ := expands.owns before.owns
    exact .fail owns (before.beside.trans beside)
  | halt => nofun
  | unguarded => nofun
  | @done sz newsz middle last dir segments expands nonzero present =>
    rintro _ ⟨⟩
    have before := first segments _ rfl
    have bound := before.bound _ rfl
    obtain ⟨owns, beside, bound, fits⟩ := expands.image (pageUp_bound bound) before.owns nonzero
      (before.fits.imp id fun covers => by rw [pageUp_pageUp bound]; exact covers _ rfl)
    refine ⟨owns.shrink present fun part x found => ?_,
      (before.beside.trans beside).trans (Beside.setDir d _ _), ?_, fits.imp id fun fits => ?_⟩
    · by_cases here : part = .page ((newsz - 2 * PGSIZE) / PGSIZE)
      · subst here
        simp only [Pgdir.frameAt, Pgdir.setEntry, update_self, Option.map_map] at found ⊢
        exact found
      · rwa [frameAt_setEntry here] at found
    · rintro _ ⟨⟩
      exact bound
    · rintro _ ⟨⟩
      obtain ⟨other, again, maps⟩ := fits.1
      cases present.symm.trans again
      exact ⟨_, setDir_same _, clear_maps maps⟩

theorem Builds.built {pushed : Bool} {result : Except Stop (Option (Nat × Nat))}
    (builds : Builds Hidden content pushed vm result next) (owns : vm.Owns loose) :
    ∀ built, result = .ok built → Built vm loose built next := by
  have undone {next : Vm} (made : Made vm loose none next) : Built vm loose none next :=
    ⟨made, nofun, .inr nofun⟩
  cases builds with
  | bad =>
    rintro _ ⟨⟩
    exact undone ⟨owns, rfl, rfl, id, fun _ _ => rfl, nofun⟩
  | unmade setsUp =>
    rintro _ ⟨⟩
    exact undone (setsUp.made owns)
  | halt => nofun
  | unfreed => nofun
  | undone setsUp program present =>
    rintro _ ⟨⟩
    have first := setsUp.made owns
    have loaded := program.loaded first.owns (.inr setsUp.covers) _ rfl
    exact undone (first.extend (discard_owns loaded.owns present) (loaded.beside.trans (discard_beside _ _ _)) nofun)
  | done setsUp program =>
    rintro _ ⟨⟩
    have first := setsUp.made owns
    have loaded := program.loaded first.owns (.inr setsUp.covers) _ rfl
    refine ⟨first.extend loaded.owns loaded.beside fun e same => (Option.some.inj same).symm, ?_,
      loaded.fits.imp id fun covers => ?_⟩
    · rintro _ ⟨⟩
      exact loaded.bound _ rfl
    · rintro _ ⟨⟩
      exact covers _ rfl

end Images

end Xv6Dedup.Paging
