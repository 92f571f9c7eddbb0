import Xv6Dedup.Paging.Loading

/-!
# A segment beyond the 32-bit addresses

The end of a segment wraps to a small size, so that no page is allocated for it,
and its bytes are stored through the kernel half of the new page directory.
-/

set_option autoImplicit false

namespace Xv6Dedup.Paging

open Function Program

section Overrun

variable {vm next : Vm} {d page frame sz : Nat} {dir : Pgdir} {entry : Entry} {Hidden : List Bool → Prop}

/-! ## The program -/

def word (n : Nat) : List Byte := (List.range 4).map fun i => BitVec.ofNat 8 (n / 256 ^ i)

def elfHeader (phnum : Nat) : List Byte :=
  word ELF_MAGIC ++ List.replicate 24 0 ++ word 52 ++ List.replicate 12 0 ++ word phnum ++ List.replicate 4 0

def programHeader (off vaddr filesz memsz : Nat) : List Byte :=
  word ELF_PROG_LOAD ++ word off ++ word vaddr ++ word 0 ++ word filesz ++ word memsz ++ word 0 ++ word 0

/-- One page at address zero, and four bytes at the data of the sample kernel. -/
def wrappingProgram : List Byte :=
  elfHeader 2 ++ programHeader 0 0 0 0x1000 ++ programHeader 0 0x80108000 4 0x7FEF9000

/-- The data of the sample kernel is mapped, and only user pages that `allocuvm` has
mapped. -/
def Vm.DataMapped (vm : Vm) (d : Nat) : Prop :=
  ∃ dir, vm.dirs d = some dir ∧ dir.Wf ∧ dir.entry 0x80108 = some { frame := 0x108, write := true, user := false }

theorem SetsUp.data (setsUp : SetsUp Hidden vm (some d) next) (link : vm.link = sampleLink) : next.DataMapped d := by
  obtain ⟨dir, present, wf, entries⟩ := setsUp.kernel rfl
  refine ⟨dir, present, wf, entries _ _ ?_⟩
  rw [link]
  exact List.mem_flatMap.mpr ⟨(KERNPAGE + 0x108, 0x108, STOPPAGE - 0x108, true), by decide, mapping_head (by decide)⟩

theorem GrowRound.data (round : GrowRound Hidden d page vm next) (data : vm.DataMapped d) : next.DataMapped d := by
  obtain ⟨pool, enters⟩ := round
  rename_i mapped middle
  obtain ⟨dir, present, wf, entry⟩ := data
  obtain ⟨changed, after, extended, _⟩ := enters.extends wf present
  cases mapped <;> exact ⟨changed, after, extended.wf, extended.kept _ _ entry⟩

theorem Expands.data {oldsz newsz : Nat} (expands : Expands Sure d oldsz newsz vm sz next)
    (data : vm.DataMapped d) (more : oldsz ≤ newsz) (small : newsz < KERNBASE)
    (enough : 2 ≤ vm.free.length ∨ pageUp oldsz = pageUp newsz) (one : pageUp newsz ≤ pageUp oldsz + 1) :
    sz = newsz ∧ next.DataMapped d := by
  cases expands with
  | large above => omega
  | less => omega
  | more _ _ grows =>
    cases grows with
    | done rounds => exact ⟨rfl, rounds.keeps (fun _ now => now.DataMapped d) (fun _ _ _ _ => GrowRound.data) data⟩
    | short before rounds short =>
      cases rounds with
      | refl => simp [short_empty short] at enough; omega
      | step _ rest => have := rest.le; omega

theorem not_grown {last oldsz newsz : Nat} {reason : Stop} (stops : GrowsStop Sure d oldsz newsz page last vm reason next)
    (covers : last = page ∨ vm.Covers d page ∧ 2 ≤ vm.free.length) (low : page < KERNPAGE) (one : last ≤ page + 1) :
    False := by
  cases stops with
  | enter before rounds pool halts =>
    cases rounds with
    | refl =>
      rcases covers with rfl | ⟨covers, _⟩
      · omega
      · exact covers_blank covers low (Nat.le_refl _) halts.wrong
    | step _ rest => have := rest.le; omega
  | free before rounds short =>
    cases rounds with
    | refl => simp [short_empty short] at covers; omega
    | step _ rest => have := rest.le; omega

/-- A segment that is read and fits: it is loaded, and the rest follows. -/
theorem Segments.first {content : List Byte} {count off : Nat} {result : Except Stop (Option Nat)}
    {Grown : Vm → Prop} (segments : Segments Sure d content (count + 1) off sz vm result next)
    (read : (readFile content off 32).1 = 32) (typed : wordOf (header content off) 0 = ELF_PROG_LOAD)
    (size : wordOf (header content off) 16 ≤ wordOf (header content off) 20)
    (grown : ∀ newsz middle, Expands Sure d sz (segmentEnd (header content off)) vm newsz middle →
      newsz = segmentEnd (header content off) ∧ Grown middle) (nonzero : segmentEnd (header content off) ≠ 0)
    (returns : ∀ reason next, ¬ GrowsStop Sure d sz (segmentEnd (header content off)) (pageUp sz)
      (pageUp (segmentEnd (header content off))) vm reason next) :
    ∃ middle outcome last, Grown middle ∧ Loads d (wordOf (header content off) 8) content
        (wordOf (header content off) 4) (wordOf (header content off) 16) 0 middle outcome last ∧
      (outcome = .ok true ∧ Segments Sure d content count ((off + 32) % 2 ^ 32)
        (segmentEnd (header content off)) last result next ∨ outcome ≠ .ok true ∧ next = last) := by
  cases segments with
  | fail wrong => omega
  | skip other => exact absurd typed other
  | unmapped expands => exact absurd (grown _ _ expands).1.symm nonzero
  | halt stops => exact (returns _ _ stops).elim
  | unread _ _ expands _ loads partly => exact ⟨_, _, _, (grown _ _ expands).2, loads, .inr ⟨partly, rfl⟩⟩
  | load _ _ expands _ loads rest =>
    obtain ⟨rfl, after⟩ := grown _ _ expands
    exact ⟨_, _, _, after, loads, .inl ⟨rfl, rest⟩⟩

theorem Loads.empty {addr offset : Nat} {content : List Byte} {outcome : Except Stop Bool}
    (loads : Loads d addr content offset 0 0 vm outcome next) (aligned : addr % PGSIZE = 0) :
    outcome = .ok true ∧ next = vm := by
  have none {stop : Nat} {middle : Vm} (rounds : Rounds (LoadRound d addr content offset 0) 0 vm stop middle) :
      middle = vm := by
    cases rounds with
    | refl => rfl
    | step first => cases first with
      | intro inside => cases inside
  cases loads with
  | done rounds => exact ⟨rfl, none rounds⟩
  | short _ inside => cases inside
  | stop _ wrong => exact absurd wrong (by simp [aligned])

/-- The bytes are stored through the kernel half. -/
theorem Loads.overrun {outcome : Except Stop Bool} (data : vm.DataMapped d)
    (loads : Loads d 0x80108000 wrappingProgram 0 4 0 vm outcome next) : (d, 0x80108, 0x108) ∈ next.stores := by
  obtain ⟨dir, present, wf, mapped⟩ := data
  have stored {other : Pgdir} (again : vm.dirs d = some other) : (d, 0x80108, 0x108) ∈
      (vm.loadPage d other (pageAt 0x80108000 0) (pageBytes wrappingProgram 0 4 0)).stores := by
    cases present.symm.trans again
    rw [show pageAt 0x80108000 0 = 0x80108 by decide, Vm.loadPage,
      if_pos (by decide +kernel : 0 < (pageBytes wrappingProgram 0 4 0).1), Pgdir.frameOf, mapped]
    exact List.mem_cons_self
  have once {stop : Nat} {middle : Vm} (rounds : Rounds (LoadRound d 0x80108000 wrappingProgram 0 4) 0 vm stop middle) :
      stop = 0 ∧ middle = vm ∨ stop ≠ 0 ∧ (d, 0x80108, 0x108) ∈ middle.stores := by
    cases rounds with
    | refl => exact .inl ⟨rfl, rfl⟩
    | step first rest =>
      cases first with
      | intro _ again => cases rest with
        | refl => exact .inr ⟨by decide, stored again⟩
        | step second => cases second with
          | intro inside => exact absurd inside (by decide)
  cases loads with
  | done rounds past =>
    rcases once rounds with ⟨rfl, _⟩ | ⟨_, member⟩
    · exact absurd past (by decide)
    · exact member
  | short rounds inside again =>
    rcases once rounds with ⟨rfl, rfl⟩ | ⟨later, _⟩
    · exact stored again
    · simp only [PGSIZE] at inside
      omega
  | stop rounds wrong =>
    rcases once rounds with ⟨rfl, rfl⟩ | ⟨_, member⟩
    · have table := wf 0x80108 (by rw [mapped]; rfl)
      have missing := (wrong.resolve_left (by decide)).2 dir present
      rw [show pageAt 0x80108000 0 = 0x80108 by decide] at missing
      rw [missing] at table
      cases table
    · exact member

theorem Segments.overrun {result : Except Stop (Option Nat)}
    (segments : Segments Sure d wrappingProgram 2 52 0 vm result next) (data : vm.DataMapped d)
    (covers : vm.Covers d 0) (enough : 2 ≤ vm.free.length) : (d, 0x80108, 0x108) ∈ next.stores := by
  have first : segmentEnd (header wrappingProgram 52) = 0x1000 := by decide +kernel
  have second : segmentEnd (header wrappingProgram 84) = 0x1000 := by decide +kernel
  obtain ⟨middle, outcome, last, data, loads, rest⟩ := segments.first
    (by decide +kernel) (by decide +kernel) (by decide +kernel)
    (fun newsz middle expands => expands.data data (by omega) (by rw [first]; decide) (.inl enough)
      (by rw [first]; decide)) (by rw [first]; decide)
    (fun _ _ stops => not_grown stops (.inr ⟨covers, enough⟩) (by decide) (by rw [first]; decide))
  rw [show wordOf (header wrappingProgram 52) 16 = 0 by decide +kernel] at loads
  obtain ⟨rfl, rfl⟩ := loads.empty (by decide +kernel)
  obtain ⟨_, rest⟩ := rest.resolve_right fun wrong => wrong.1 rfl
  rw [first, show (52 + 32) % 2 ^ 32 = 84 by decide] at rest
  -- the end of the second segment wraps to the end of the first
  obtain ⟨middle, outcome, last, data, loads, final⟩ := rest.first
    (by decide +kernel) (by decide +kernel) (by decide +kernel)
    (fun newsz middle expands => expands.data data (by rw [second]) (by rw [second]; decide) (.inr (by rw [second]))
      (by rw [second]; decide)) (by rw [second]; decide)
    (fun _ _ stops => not_grown stops (.inl (by rw [second])) (by decide) (by rw [second]; decide))
  have stored : (d, 0x80108, 0x108) ∈ last.stores := by
    rw [show wordOf (header wrappingProgram 84) 8 = 0x80108000 by decide +kernel,
      show wordOf (header wrappingProgram 84) 4 = 0 by decide +kernel,
      show wordOf (header wrappingProgram 84) 16 = 4 by decide +kernel] at loads
    exact loads.overrun data
  rcases final with ⟨_, done⟩ | ⟨_, rfl⟩
  · cases done with
    | done => exact stored
  · exact stored

def Overrun (start next : Vm) : Prop :=
  ∃ d, start.dirs d = none ∧ (d, 0x80108, 0x108) ∈ next.stores

theorem Stored.overrun {loose : List Nat} (stored : Stored Sure wrappingProgram vm next) (owns : vm.Owns loose)
    (link : vm.link = sampleLink) (enough : 67 ≤ vm.free.length) : Overrun vm next := by
  cases stored with
  | bad wrong => exact absurd wrong (by decide +kernel)
  | unmade setsUp => exact absurd setsUp.exhausts.1 (by omega)
  | @segments d middle last result setsUp segments unloaded =>
    obtain ⟨_, _, _, free, _⟩ := setsUp.counts rfl
    rw [show halfOf (readFile wrappingProgram 0 52).2 44 = 2 by decide +kernel,
      show wordOf (readFile wrappingProgram 0 52).2 28 = 52 by decide +kernel] at segments
    have member := segments.overrun (setsUp.data link) setsUp.covers (by omega)
    exact ⟨d, (setsUp.made owns).fresh d rfl, unloaded.stores ▸ member⟩

end Overrun

end Xv6Dedup.Paging
