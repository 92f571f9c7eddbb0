import Xv6Dedup.System.References

/-!
# Looking up paths without writing

Path lookup reads directories and drops references outside transactions. It
writes nothing when no inode has a hole and every allocated inode without
links is in use, whichever buffers are recycled on the way.
-/

set_option autoImplicit false

namespace Xv6Dedup

open Function Program

/-- What reading a sector returns, with its buffer recycled or not. -/
def State.Offers (state : State) (sector : Nat) (block : Block) : Prop :=
  block = (state.buf sector).data ∨ block = state.disk sector

/-- The sector that block `bn` of an inode is read from. -/
inductive Designates (offers : Nat → Block → Prop) (inode : Dinode) : (bn sector : Nat) → Prop
  | direct {bn : Nat} (bounded : bn < NDIRECT) : Designates offers inode bn (inode.addr bn)
  | entry {table : Block} {index : Nat} (offered : offers (inode.addr NDIRECT) table)
      (bounded : index < NINDIRECT) :
      Designates offers inode (NDIRECT + index) (entryAt table index)

/-- No block below the size is missing, and the entries of a directory name
inodes that exist. -/
structure Whole (offers : Nat → Block → Prop) (inode : Dinode) : Prop where
  blocks : ∀ bn sector, BSIZE * bn < inode.size → Designates offers inode bn sector → sector ≠ 0
  table : BSIZE * NDIRECT < inode.size → inode.addr NDIRECT ≠ 0
  entries : inode.type = T_DIR → ∀ bn sector block, BSIZE * bn < inode.size →
    Designates offers inode bn sector → offers sector block →
    ∀ position < 32, block.half (16 * position) < NINODES

/-- Every inode is whole, and one that is allocated but not in use has a link. -/
structure Browsable (state : State) : Prop where
  cached : ∀ slot, 0 < (state.icache slot).ref → (state.icache slot).valid = true →
    Whole state.Offers (state.icache slot).toDinode
  stored : ∀ inum < NINODES, ∀ block, state.Offers (IBLOCK inum) block →
    (dinodeAt block (inum % IPB)).type ≠ 0 → Whole state.Offers (dinodeAt block (inum % IPB))
  linked : ∀ inum < NINODES, (∀ slot, 0 < (state.icache slot).ref →
    (state.icache slot).inum ≠ inum) → ∀ block, state.Offers (IBLOCK inum) block →
    (dinodeAt block (inum % IPB)).type ≠ 0 → (dinodeAt block (inum % IPB)).nlink ≠ 0
  exist : ∀ slot, 0 < (state.icache slot).ref → (state.icache slot).inum < NINODES

/-- Where the contents of a valid cache entry came from. -/
inductive Loaded (start : State) (slot : Slot) (inode : Inode) : Prop
  | before (used : 0 < (start.icache slot).ref) (valid : (start.icache slot).valid = true)
      (same : inode.toDinode = (start.icache slot).toDinode)
  | read {block : Block} (fresh : 0 < (start.icache slot).ref → (start.icache slot).valid = false)
      (offered : start.Offers (IBLOCK inode.inum) block)
      (same : inode.toDinode = dinodeAt block (inode.inum % IPB)) (typed : inode.type ≠ 0)

theorem Loaded.congr {start : State} {slot : Slot} {inode other : Inode}
    (loaded : Loaded start slot inode) (dinode : other.toDinode = inode.toDinode)
    (inum : other.inum = inode.inum) : Loaded start slot other := by
  cases loaded with
  | before used valid same => exact .before used valid (dinode.trans same)
  | read fresh offered same typed =>
    rw [← inum] at offered same
    exact .read fresh offered (dinode.trans same) (dinode ▸ typed)

/-- A cache entry during a lookup that began in `start` and holds `taken`
references to it. -/
structure Borrowed (start : State) (slot : Slot) (taken : Int) (inode : Inode) : Prop where
  ref : inode.ref = (start.icache slot).ref + taken
  taking : 0 ≤ taken
  named : 0 < (start.icache slot).ref → inode.inum = (start.icache slot).inum
  fresh : (start.icache slot).ref = 0 → 0 < taken → inode.inum < NINODES ∧
    ∀ other, 0 < (start.icache other).ref → (start.icache other).inum ≠ inode.inum
  valid : 0 < (start.icache slot).ref → (start.icache slot).valid = true → inode.valid = true
  loaded : 0 < inode.ref → inode.valid = true → Loaded start slot inode

/-- During a lookup that began in `start` and holds the references `taken`. -/
structure Browsing (start : State) (taken : Slot → Int) (state : State) : Prop where
  files : state.ftable = start.ftable
  pipes : state.pipes = start.pipes
  cwd : state.cwd = start.cwd
  log : state.log = start.log
  disk : state.disk = start.disk
  bufs : ∀ sector, start.Offers sector (state.buf sector).data
  counted : ∀ slot, 0 ≤ (start.icache slot).ref
  slots : ∀ slot, Borrowed start slot (taken slot) (state.icache slot)

namespace Browsing

variable {start state : State} {taken : Slot → Int} {ip : Slot} {index : Nat}

theorem refl (counted : ∀ slot, 0 ≤ (start.icache slot).ref) : Browsing start 0 start where
  files := rfl
  pipes := rfl
  cwd := rfl
  log := rfl
  disk := rfl
  bufs _ := .inl rfl
  counted := counted
  slots _ :=
    { ref := (add_zero _).symm
      taking := le_refl _
      named := fun _ => rfl
      fresh := fun _ positive => absurd positive (lt_irrefl _)
      valid := fun _ => id
      loaded := fun used valid => .before used valid rfl }

section

variable (browsing : Browsing start taken state)
include browsing

theorem used (takes : 0 < taken ip) : 0 < (state.icache ip).ref := by
  have lower := browsing.counted ip
  rw [(browsing.slots ip).ref]
  omega

theorem shifted : Shifted start taken start.log.busy state :=
  { browsing with
    logging := congrArg Log.busy browsing.log
    refs := fun slot => (browsing.slots slot).ref }

theorem inum_lt (browsable : Browsable start) (used : 0 < (state.icache ip).ref) :
    (state.icache ip).inum < NINODES := by
  have lower := browsing.counted ip
  by_cases before : 0 < (start.icache ip).ref
  · rw [(browsing.slots ip).named before]
    exact browsable.exist ip before
  · have unused : (start.icache ip).ref = 0 := by omega
    rw [(browsing.slots ip).ref, unused, zero_add] at used
    exact ((browsing.slots ip).fresh unused used).1

theorem whole (browsable : Browsable start) (used : 0 < (state.icache ip).ref)
    (valid : (state.icache ip).valid = true) : Whole start.Offers (state.icache ip).toDinode := by
  cases (browsing.slots ip).loaded used valid with
  | before used valid same =>
    rw [same]
    exact browsable.cached ip used valid
  | read _ offered same typed =>
    rw [same] at typed ⊢
    exact browsable.stored _ (browsing.inum_lt browsable used) _ offered typed

theorem keeps (browsable : Browsable start) (takes : 0 < taken ip) :
    ¬ ((state.icache ip).ref = 1 ∧ (state.icache ip).valid = true ∧ (state.icache ip).nlink = 0) := by
  rintro ⟨last, valid, unlinked⟩
  have lower := browsing.counted ip
  rw [(browsing.slots ip).ref] at last
  have unused : (start.icache ip).ref = 0 := by omega
  cases (browsing.slots ip).loaded (browsing.used takes) valid with
  | before used _ _ => omega
  | read _ offered same typed =>
    obtain ⟨bounded, apart⟩ := (browsing.slots ip).fresh unused takes
    rw [same] at typed unlinked
    exact browsable.linked _ bounded apart _ offered typed unlinked

/-! ## Buffers -/

end

def Reads (start : State) (taken : Slot → Int) (state next : State) : Prop :=
  Browsing start taken next ∧ next.icache = state.icache

section

variable (browsing : Browsing start taken state)
include browsing

theorem rebuf {buf : Nat → Buf} (bufs : ∀ sector, start.Offers sector (buf sector).data) :
    Browsing start taken { state with buf := buf } :=
  { browsing with bufs := bufs }

theorem reflag {sector : Nat} {buffer : Buf} (same : buffer.data = (state.buf sector).data) :
    Browsing start taken (state.setBuf sector buffer) := by
  refine browsing.rebuf fun other => ?_
  by_cases this : other = sector
  · rw [this, update_self, same]
    exact browsing.bufs sector
  · rw [update_of_ne this]
    exact browsing.bufs other

theorem bread_wp (sector : Nat) : TransWp (bread sector) state
      (fun bp next => bp = sector ∧ Reads start taken state next) := by
  refine Wp.bind (Wp.remembered fun memo _ => Wp.bind (Wp.remember (fun _ _ => trivial) ?_))
  have recycled : Browsing start taken (state.recycled (memo.recycle.headD [])) := by
    refine browsing.rebuf fun other => ?_
    split
    · exact .inr (congrFun browsing.disk other)
    · exact browsing.bufs other
  refine Wp.set (Wp.see (Wp.ite (fun _ => ?_) fun _ => ?_))
  · exact Wp.throw (by decide)
  · exact Wp.set (Wp.pure ⟨rfl, recycled.reflag rfl, rfl⟩)

theorem bdata_wp (sector : Nat) : TransWp (bdata sector) state
      (fun data next => start.Offers sector data ∧ next = state) :=
  Wp.see (Wp.ite (fun _ => Wp.pure ⟨browsing.bufs sector, rfl⟩) fun _ =>
    Wp.throw (by decide))

theorem brelse_wp (sector : Nat) : TransWp (brelse sector) state (fun _ => Reads start taken state) :=
  Wp.see (Wp.ite (fun _ => Wp.change ⟨browsing.reflag rfl, rfl⟩) fun _ =>
    Wp.throw (by decide))

/-! ## The inode cache -/

theorem setInode {inode : Inode} {amount : Int} (borrowed : Borrowed start ip (taken ip + amount) inode) :
    Browsing start (taken + Pi.single ip amount) (state.setInode ip inode) :=
  { browsing with
    slots := fun slot => by
      by_cases same : slot = ip
      · subst same
        simpa only [State.setInode, update_self, Pi.add_apply, Pi.single_eq_same] using borrowed
      · simpa only [State.setInode, update_of_ne same, Pi.add_apply,
          Pi.single_eq_of_ne same, add_zero] using browsing.slots slot }

theorem reinode {inode : Inode} (ref : inode.ref = (state.icache ip).ref)
    (inum : inode.inum = (state.icache ip).inum)
    (valid : (state.icache ip).valid = true → inode.valid = true)
    (loaded : 0 < inode.ref → inode.valid = true → Loaded start ip inode) :
    Browsing start taken (state.setInode ip inode) := by
  have borrowed : Borrowed start ip (taken ip + 0) inode :=
    { ref := by rw [ref, add_zero, (browsing.slots ip).ref]
      taking := by rw [add_zero]; exact (browsing.slots ip).taking
      named := fun used => inum.trans ((browsing.slots ip).named used)
      fresh := by rw [inum, add_zero]; exact (browsing.slots ip).fresh
      valid := fun used before => valid ((browsing.slots ip).valid used before)
      loaded := loaded }
  have changed := browsing.setInode borrowed
  rwa [Pi.single_zero, add_zero] at changed

theorem recount {amount : Int} (used : 0 < (state.icache ip).ref) (enough : 0 ≤ taken ip + amount)
    (again : (start.icache ip).ref = 0 → 0 < taken ip) : Browsing start (taken + Pi.single ip amount)
      (state.setInode ip { state.icache ip with ref := (state.icache ip).ref + amount }) := by
  refine browsing.setInode ⟨?_, enough, (browsing.slots ip).named, fun unused _ => ?_, (browsing.slots ip).valid, ?_⟩
  · simp only [(browsing.slots ip).ref, add_assoc]
  · exact (browsing.slots ip).fresh unused (again unused)
  · exact fun _ valid => ((browsing.slots ip).loaded used valid).congr rfl rfl

theorem iget_wp {inum : Nat} (bounded : inum < NINODES) : TransWp (iget inum) state
      (fun ip next => Browsing start (taken + one ip) next ∧
        ∀ slot, slot ≠ ip → next.icache slot = state.icache slot) := by
  refine Wp.see ?_
  have others : ∀ (ip : Slot) (inode : Inode) (slot : Slot), slot ≠ ip →
      (state.setInode ip inode).icache slot = state.icache slot := fun ip inode slot other => by
    simp only [State.setInode, update_of_ne other]
  cases present : state.findInode inum with
  | some slot =>
    obtain ⟨used, _⟩ := State.findInode_some present
    refine Wp.set (Wp.pure ⟨?_, others slot _⟩)
    refine browsing.recount used (add_nonneg (browsing.slots slot).taking zero_le_one) ?_
    intro unused
    rwa [(browsing.slots slot).ref, unused, zero_add] at used
  | none =>
    cases empty : state.emptyInode with
    | none => exact Wp.throw (by decide)
    | some slot =>
      have unused := State.emptyInode_some empty
      have lower := browsing.counted slot
      have taking := (browsing.slots slot).taking
      rw [(browsing.slots slot).ref] at unused
      refine Wp.set (Wp.pure ⟨browsing.setInode ?_, others slot _⟩)
      refine ⟨by simp only; omega, by omega, fun used => by omega, fun _ _ => ⟨bounded, ?_⟩, fun used => by omega, ?_⟩
      · intro other used same
        rw [← (browsing.slots other).named used] at same
        have count := (browsing.slots other).ref
        have held := (browsing.slots other).taking
        exact State.findInode_none present other (by omega) same
      · exact fun _ valid => absurd valid Bool.false_ne_true

theorem idup_wp (used : 0 < (start.icache ip).ref) :
    TransWp (idup ip) state (fun slot => Browsing start (taken + one slot)) := by
  have taking := (browsing.slots ip).taking
  refine Wp.set (Wp.pure (browsing.recount ?_ (by omega) fun unused => by omega))
  rw [(browsing.slots ip).ref]
  omega

theorem ilock_wp : TransWp (ilock ip) state
      (fun _ next => Browsing start taken next ∧ (next.icache ip).valid = true ∧ (next.icache ip).busy = true) := by
  refine Wp.peek ?_
  refine Wp.guard (by decide) fun _ => ?_
  refine Wp.guard (by decide) fun _ => ?_
  have locked : Browsing start taken (state.setInode ip { state.icache ip with busy := true }) :=
    browsing.reinode rfl rfl id fun used valid =>
      ((browsing.slots ip).loaded used valid).congr rfl rfl
  refine Wp.set (Wp.ite (fun valid => Wp.pure ⟨locked, ?_, ?_⟩) fun invalid => ?_)
  · simp only [State.setInode, update_self]
    exact valid
  · simp only [State.setInode, update_self]
  refine Wp.seq (locked.bread_wp _) ?_
  rintro bp first ⟨rfl, firstBrowsing, firstCache⟩
  refine Wp.seq (firstBrowsing.bdata_wp _) ?_
  rintro data second ⟨offered, rfl⟩
  refine Wp.seq (firstBrowsing.brelse_wp _) ?_
  rintro _ third ⟨thirdBrowsing, thirdCache⟩
  have entry : third.icache ip = { state.icache ip with busy := true } := by
    rw [thirdCache, firstCache]
    simp only [State.setInode, update_self]
  refine Wp.set (Wp.guard (by decide) fun typed => Wp.pure ⟨?_, ?_, ?_⟩)
  · refine thirdBrowsing.reinode (by rw [entry]) (by rw [entry]) (fun _ => rfl) fun _ _ => ?_
    refine .read (fun used => Bool.eq_false_iff.mpr fun before => ?_) offered rfl typed
    exact invalid ((browsing.slots ip).valid used before)
  · simp only [State.setInode, update_self]
  · simp only [State.setInode, update_self]

theorem iunlock_wp : TransWp (iunlock ip) state (fun _ => Browsing start taken) := by
  refine Wp.peek ?_
  refine Wp.guard (by decide) fun _ => Wp.change ?_
  exact browsing.reinode rfl rfl id fun used valid =>
    ((browsing.slots ip).loaded used valid).congr rfl rfl

theorem iput_wp (browsable : Browsable start) (takes : 0 < taken ip) :
    TransWp (iput ip) state (fun _ => Browsing start (taken - one ip)) := by
  refine Wp.peek ?_
  refine Wp.bind (Wp.onlyIf (fun last => absurd last (browsing.keeps browsable takes)) fun _ => ?_)
  refine Wp.change ?_
  rw [sub_eq_add_neg, ← Pi.single_neg]
  exact browsing.recount (browsing.used takes) (by omega) fun _ => takes

theorem iunlockput_wp (browsable : Browsable start) (takes : 0 < taken ip) :
    TransWp (iunlockput ip) state (fun _ => Browsing start (taken - one ip)) :=
  Wp.seq browsing.iunlock_wp fun _ _ unlocked => unlocked.iput_wp browsable takes

/-! ## Reading -/

end

theorem bmapAddr_wp (present : (state.icache ip).addr index ≠ 0) : TransWp (bmapAddr ip index) state
      (fun addr next => addr = (state.icache ip).addr index ∧ next = state) :=
  Wp.peek (Wp.ite (fun missing => absurd missing present) fun _ =>
    Wp.pure ⟨rfl, rfl⟩)

theorem bmap_wp (browsing : Browsing start taken state)
    (whole : Whole start.Offers (state.icache ip).toDinode) {bn : Nat} (inside : BSIZE * bn < (state.icache ip).size) :
    TransWp (bmap ip bn) state (fun sector next => Designates start.Offers (state.icache ip).toDinode bn sector ∧
        Reads start taken state next) := by
  refine Wp.ite (fun direct => ?_) fun indirect => Wp.ite (fun bounded => ?_) fun _ => ?_
  · have designated : Designates start.Offers (state.icache ip).toDinode bn _ := .direct direct
    refine (bmapAddr_wp (whole.blocks bn _ inside designated)).post ?_
    rintro addr next ⟨rfl, rfl⟩
    exact ⟨designated, browsing, rfl⟩
  · have later : BSIZE * NDIRECT < (state.icache ip).size :=
      lt_of_le_of_lt (Nat.mul_le_mul_left _ (Nat.not_lt.mp indirect)) inside
    refine Wp.bind ((bmapAddr_wp (whole.table later)).post ?_)
    rintro addr next ⟨rfl, rfl⟩
    refine Wp.seq (browsing.bread_wp _) ?_
    rintro bp first ⟨rfl, firstBrowsing, firstCache⟩
    refine Wp.seq (firstBrowsing.bdata_wp _) ?_
    rintro table second ⟨offered, rfl⟩
    have designated : Designates start.Offers (next.icache ip).toDinode bn (entryAt table (bn - NDIRECT)) := by
      have entry : Designates start.Offers (next.icache ip).toDinode (NDIRECT + (bn - NDIRECT))
          (entryAt table (bn - NDIRECT)) := .entry offered bounded
      rwa [Nat.add_sub_cancel' (Nat.not_lt.mp indirect)] at entry
    refine Wp.ite (fun missing => absurd missing (whole.blocks bn _ inside designated)) fun _ => ?_
    refine Wp.seq (firstBrowsing.brelse_wp _) ?_
    rintro _ third ⟨thirdBrowsing, thirdCache⟩
    exact Wp.pure ⟨designated, thirdBrowsing, thirdCache.trans firstCache⟩
  · exact Wp.throw (by decide)

def Within (start : State) (inode : Dinode) (off n : Nat) (bytes : List Byte) : Prop :=
  0 < n → off % BSIZE + n ≤ BSIZE → ∃ sector block,
    Designates start.Offers inode (off / BSIZE) sector ∧ start.Offers sector block ∧
      bytes = (List.range n).map fun k => block.get (off % BSIZE + k)

section

variable (browsing : Browsing start taken state)
include browsing

theorem readLoop_wp (whole : Whole start.Offers (state.icache ip).toDinode) {count off n : Nat}
    (inside : off + n ≤ (state.icache ip).size) :
    TransWp (readLoop ip count off n) state (fun bytes next => ((n = 0 → bytes = []) ∧
        (n ≤ count → Within start (state.icache ip).toDinode off n bytes)) ∧ Reads start taken state next) := by
  induction count generalizing off n state with
  | zero =>
    exact Wp.pure ⟨⟨fun _ => rfl, fun short positive => absurd positive (by omega)⟩, browsing, rfl⟩
  | succ count ih =>
    refine Wp.ite (fun zero => Wp.pure ⟨⟨fun _ => rfl, fun _ positive => absurd positive
      (by omega)⟩, browsing, rfl⟩) fun some => ?_
    have first : BSIZE * (off / BSIZE) < (state.icache ip).size :=
      lt_of_le_of_lt (Nat.mul_div_le off BSIZE) (by omega)
    refine Wp.bind ((browsing.bmap_wp whole first).post ?_)
    rintro sector mapped ⟨designated, mappedBrowsing, mappedCache⟩
    refine Wp.seq (mappedBrowsing.bread_wp _) ?_
    rintro bp held ⟨rfl, heldBrowsing, heldCache⟩
    refine Wp.seq (heldBrowsing.bdata_wp _) ?_
    rintro data same ⟨offered, rfl⟩
    refine Wp.seq (heldBrowsing.brelse_wp _) ?_
    rintro _ released ⟨releasedBrowsing, releasedCache⟩
    have cache : released.icache = state.icache :=
      releasedCache.trans (heldCache.trans mappedCache)
    have entry : released.icache ip = state.icache ip := congrFun cache ip
    refine Wp.seq (ih releasedBrowsing (by rw [entry]; exact whole) (by rw [entry]; omega)) ?_
    rintro rest next ⟨⟨ended, _⟩, nextBrowsing, nextCache⟩
    refine Wp.pure ⟨⟨fun zero => absurd zero some, fun _ _ within =>
      ⟨bp, data, designated, offered, ?_⟩⟩, nextBrowsing, nextCache.trans cache⟩
    -- the loop ends after this block
    have whole : min n (BSIZE - off % BSIZE) = n := by omega
    rw [whole] at ended ⊢
    rw [ended (Nat.sub_self n), List.append_nil]

theorem readi_wp (browsable : Browsable start) (used : 0 < (state.icache ip).ref)
    (valid : (state.icache ip).valid = true) {off n : Nat} (small : n < 2 ^ 32) :
    TransWp (readi ip off n) state (fun result next => ((state.icache ip).type ≠ T_DEV → result.1 = n → 0 < n →
        off + n ≤ (state.icache ip).size ∧
          Within start (state.icache ip).toDinode off n result.2) ∧ Reads start taken state next) := by
  refine Wp.see (Wp.ite (fun device => ?_) fun _ => Wp.ite (fun outside => ?_) fun inside => ?_)
  · cases (if (state.icache ip).major < NDEV then state.drivers.read (state.icache ip).major
      else none) with
    | none | some read => exact Wp.pure ⟨fun file => absurd device file, browsing, rfl⟩
  · exact Wp.pure ⟨fun _ failed => absurd failed (by simp only; omega), browsing, rfl⟩
  · have upper : off + (if (state.icache ip).size < (off + n) % 2 ^ 32 then
        (state.icache ip).size - off else n) ≤ (state.icache ip).size := by
      split
      · omega
      · omega
    refine Wp.seq (browsing.readLoop_wp (browsing.whole browsable used valid) upper) ?_
    rintro bytes next ⟨⟨_, within⟩, reads⟩
    refine Wp.pure ⟨fun _ whole positive => ?_, reads⟩
    have full := Int.ofNat.inj whole
    rw [full] at upper within
    exact ⟨upper, within (Nat.le_refl n)⟩

/-! ## Directories -/

theorem readDirent_wp (browsable : Browsable start) (used : 0 < (state.icache ip).ref)
    (valid : (state.icache ip).valid = true) (directory : (state.icache ip).type = T_DIR)
    {off : Nat} (aligned : 16 ∣ off) {message : String} (other : message ≠ "write outside of trans") :
    TransWp (readDirent ip off message) state (fun de next => de.inum < NINODES ∧ Reads start taken state next) := by
  refine Wp.seq (browsing.readi_wp browsable used valid (by decide)) ?_
  rintro ⟨r, bytes⟩ next ⟨read, reads⟩
  refine Wp.ite (fun _ => Wp.throw fun same => other (Stop.panic.inj same)) fun complete => ?_
  refine Wp.pure ⟨?_, reads⟩
  obtain ⟨inside, within⟩ := read (by rw [directory]; decide) (not_not.mp complete) (by decide)
  have fits : off % 512 + 16 ≤ 512 := by omega
  have below : 512 * (off / 512) < (state.icache ip).size := by omega
  have position : 16 * (off % 512 / 16) = off % 512 := by omega
  obtain ⟨sector, block, designated, offered, rfl⟩ := within (by decide) fits
  have entry := (browsing.whole browsable used valid).entries directory (off / BSIZE) sector block
    below designated offered (off % 512 / 16) (by omega)
  rw [position] at entry
  exact entry

theorem dirlookup_wp (browsable : Browsable start) (used : 0 < (state.icache ip).ref)
    (valid : (state.icache ip).valid = true) (name : List Byte) :
    TransWp (dirlookup ip name) state (fun result next => Browsing start (taken + found result) next ∧
        (result = none → next.icache = state.icache)) := by
  have scan : (state.icache ip).type = T_DIR → ∀ count off current, 16 ∣ off → Reads start taken state current →
      TransWp (dirlookupFrom ip name count off) current (fun result next => Browsing start (taken + found result) next ∧
          (result = none → next.icache = state.icache)) := by
    intro directory count
    induction count with
    | zero =>
      rintro off current _ ⟨reading, cache⟩
      exact Wp.pure ⟨by rw [found, add_zero]; exact reading, fun _ => cache⟩
    | succ count ih =>
      rintro off current aligned ⟨reading, cache⟩
      have entry : current.icache ip = state.icache ip := congrFun cache ip
      refine Wp.peek ?_
      refine Wp.ite (fun _ => Wp.pure ⟨by rw [found, add_zero]; exact reading, fun _ => cache⟩) fun _ => ?_
      refine Wp.seq (reading.readDirent_wp browsable (by rw [entry]; exact used)
        (by rw [entry]; exact valid) (by rw [entry]; exact directory) aligned (by decide)) ?_
      rintro de next ⟨bounded, nextReading, nextCache⟩
      refine Wp.ite (fun _ => ?_) fun _ =>
        ih _ next (Nat.dvd_add aligned (Nat.dvd_refl 16)) ⟨nextReading, nextCache.trans cache⟩
      refine Wp.seq (nextReading.iget_wp bounded) ?_
      rintro following last ⟨lastReading, _⟩
      exact Wp.pure ⟨lastReading, by rintro ⟨⟩⟩
  refine Wp.peek ?_
  refine Wp.guard (by decide) fun directory => ?_
  exact scan (not_not.mp directory) _ _ state ⟨0, rfl⟩ ⟨browsing, rfl⟩

theorem namexFrom_wp (browsable : Browsable start) (takes : 0 < taken ip) (nameiparent : Bool)
    {count : Nat} {path : List Byte} (enough : path.length < count) :
    TransWp (namexFrom nameiparent count ip path) state
      (fun result => Browsing start (taken - one ip + found result)) := by
  induction count generalizing ip path state taken with
  | zero => exact absurd enough (Nat.not_lt_zero _)
  | succ count ih =>
    unfold namexFrom
    have stay : taken - one ip + one ip = taken := sub_add_cancel _ _
    have leave : ∀ {slots : Slot → Int} {next : State}, Browsing start slots next →
        Browsing start (slots + found (none : Option (Slot × List Byte))) next := fun done => by
      rwa [found, add_zero]
    cases element : skipelem path with
    | none =>
      refine Wp.ite (fun _ => ?_) fun _ => Wp.pure (by rwa [found, stay])
      refine Wp.seq (browsing.iput_wp browsable takes) fun _ next done => ?_
      exact Wp.pure (leave done)
    | some pair =>
      obtain ⟨name, rest⟩ := pair
      have shorter := skipelem_shorter element
      refine Wp.seq browsing.ilock_wp ?_
      rintro _ locked ⟨lockedBrowsing, valid, _⟩
      refine Wp.peek ?_
      refine Wp.ite (fun _ => ?_) fun _ => Wp.ite (fun _ => ?_) fun _ => ?_
      · refine Wp.seq (lockedBrowsing.iunlockput_wp browsable takes) fun _ next done => ?_
        exact Wp.pure (leave done)
      · refine Wp.seq lockedBrowsing.iunlock_wp fun _ next done => ?_
        exact Wp.pure (by rwa [found, stay])
      · refine Wp.seq (lockedBrowsing.dirlookup_wp browsable (lockedBrowsing.used takes) valid name) ?_
        rintro result next ⟨nextBrowsing, _⟩
        cases result with
        | none =>
          rw [found, add_zero] at nextBrowsing
          refine Wp.seq (nextBrowsing.iunlockput_wp browsable takes) fun _ last done => ?_
          exact Wp.pure (leave done)
        | some entry =>
          obtain ⟨following, off⟩ := entry
          rw [found] at nextBrowsing
          have here : 0 < (taken + one following) ip :=
            lt_of_lt_of_le takes (le_add_of_nonneg_right (one_nonneg following ip))
          have there : 0 < (taken + one following - one ip) following := by
            have held := (browsing.slots following).taking
            by_cases same : following = ip
            · rw [same, add_sub_cancel_right]
              exact takes
            · rw [Pi.sub_apply, Pi.add_apply, one_self, one_of_ne same]
              omega
          refine Wp.seq (nextBrowsing.iunlockput_wp browsable here) fun _ last done => ?_
          refine (ih done there (by omega)).post fun result final finished => ?_
          rwa [add_sub_right_comm, add_sub_cancel_right] at finished

end

theorem namex_wp (browsing : Browsing start 0 state) (browsable : Browsable start)
    (rooted : 0 < (start.icache state.cwd).ref) (path : List Byte) (nameiparent : Bool) :
    TransWp (namex path nameiparent) state (fun result => Browsing start (found result)) := by
  have began : TransWp (startInode path) state (fun ip => Browsing start (one ip)) := by
    refine Wp.see (Wp.ite (fun _ => ?_) fun _ => ?_)
    · refine (browsing.iget_wp (by decide)).post fun ip next done => ?_
      rw [zero_add] at done
      exact done.1
    · refine (browsing.idup_wp rooted).post fun ip next done => ?_
      rwa [zero_add] at done
  refine Wp.seq began fun ip next done => ?_
  have takes : 0 < one ip ip := by rw [one_self]; decide
  refine (done.namexFrom_wp browsable takes nameiparent (Nat.lt_succ_self _)).post ?_
  intro result last finished
  rwa [sub_self, zero_add] at finished

theorem namei_wp (browsing : Browsing start 0 state) (browsable : Browsable start)
    (rooted : 0 < (start.icache state.cwd).ref) (path : List Byte) :
    TransWp (namei path) state (fun result => Browsing start (foundInode result)) := by
  refine Wp.seq (browsing.namex_wp browsable rooted path false) fun result next done => ?_
  cases result with
  | none | some entry => exact Wp.pure done

end Browsing

end Xv6Dedup
