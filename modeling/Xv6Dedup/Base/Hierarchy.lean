import Xv6Dedup.Base.Sharing

/-!
# Hierarchies with link counts

Places `P` lie in folders and may name an item `I`. A folder is named at most
once, and then knows the folder in which it is named. The links of an item count
the places that name it and the folders that are named in it.
-/

set_option autoImplicit false

namespace Xv6Dedup.Hierarchy

open Function

structure Shape (I P : Type) where
  live : I → Prop
  folder : I → Bool
  parent : I → I
  target : P → Option I
  links : I → Nat

section Shapes

variable {I P : Type} [DecidableEq I]

/-- The folder in which a place names a folder. -/
def Shape.inner (shape : Shape I P) (home : P → I) (place : P) : Option I :=
  if (shape.target place).any shape.folder then some (home place) else none

/-- The places that name the item, and those in it that name folders. -/
def Shape.count (shape : Shape I P) (slots : Finset P) (home : P → I) (item : I) : Nat :=
  Sharing.users slots shape.target (some item) + Sharing.users slots (shape.inner home) (some item)

structure Sound (slots : Finset P) (home : P → I) (root : I) (shape : Shape I P) : Prop where
  top : shape.folder root = true
  live : ∀ item, shape.folder item = true → shape.live item
  within : ∀ place item, shape.target place = some item → place ∈ slots
  inside : ∀ place item, shape.target place = some item → shape.folder (home place) = true
  named : ∀ place item, shape.target place = some item → shape.live item
  below : ∀ place item, shape.target place = some item → item ≠ root
  single : ∀ place other item, shape.target place = some item → shape.target other = some item →
    shape.folder item = true → place = other
  back : ∀ place item, shape.target place = some item → shape.folder item = true → shape.parent item = home place
  counted : ∀ item, shape.count slots home item + (if item = root then 1 else 0) ≤ shape.links item

/-- Every link is that of a place. -/
def Exact (slots : Finset P) (home : P → I) (root : I) (shape : Shape I P) : Prop :=
  ∀ item, shape.live item → shape.count slots home item + (if item = root then 1 else 0) = shape.links item

/-- What is found from the root by following names. -/
inductive Reach (home : P → I) (root : I) (shape : Shape I P) : I → Prop
  | root : Reach home root shape root
  | step {place : P} {item : I} : Reach home root shape (home place) →
      shape.target place = some item → Reach home root shape item

/-- Only folders that can be reached name anything. -/
def Attached (home : P → I) (root : I) (shape : Shape I P) : Prop :=
  ∀ place item, shape.target place = some item → Reach home root shape (home place)

/-! ## Changes -/

/-- A new item at a place. -/
structure Added [DecidableEq P] (home : P → I) (place : P) (item : I) (shape after : Shape I P) :
    Prop where
  live : ∀ other, after.live other ↔ other = item ∨ shape.live other
  folder : ∀ other, other ≠ item → after.folder other = shape.folder other
  parent : ∀ other, other ≠ item → shape.folder other = true → after.parent other = shape.parent other
  under : after.folder item = true → after.parent item = home place
  target : after.target = update shape.target place (some item)
  one : after.links item = 1
  links : ∀ other, other ≠ item → after.links other = shape.links other +
    if after.folder item = true ∧ home place = other then 1 else 0

/-- Another name of an item. -/
structure Linked [DecidableEq P] (place : P) (item : I) (shape after : Shape I P) : Prop where
  live : ∀ other, after.live other ↔ shape.live other
  folder : after.folder = shape.folder
  parent : ∀ other, shape.folder other = true → after.parent other = shape.parent other
  target : after.target = update shape.target place (some item)
  links : ∀ other, after.links other = shape.links other + if item = other then 1 else 0

/-- A name is removed. -/
structure Removed [DecidableEq P] (home : P → I) (place : P) (item : I) (shape after : Shape I P) :
    Prop where
  live : ∀ other, after.live other ↔ shape.live other
  folder : after.folder = shape.folder
  parent : ∀ other, shape.folder other = true → after.parent other = shape.parent other
  target : after.target = update shape.target place none
  links : ∀ other, after.links other + (if item = other then 1 else 0) +
    (if shape.folder item = true ∧ home place = other then 1 else 0) = shape.links other

/-- Items without links are gone, and the names in them. -/
structure Freed (home : P → I) (Gone : I → Prop) (shape after : Shape I P) : Prop where
  live : ∀ item, after.live item ↔ shape.live item ∧ ¬ Gone item
  folder : ∀ item, after.folder item = true ↔ shape.folder item = true ∧ ¬ Gone item
  parent : ∀ item, shape.folder item = true → ¬ Gone item → after.parent item = shape.parent item
  target : ∀ place item, after.target place = some item ↔ shape.target place = some item ∧ ¬ Gone (home place)
  links : ∀ item, ¬ Gone item → after.links item = shape.links item
  gone : ∀ item, Gone item → shape.links item = 0

/-- A change that can be made; a new name is in one of the folders `Parent`. -/
inductive Change [DecidableEq P] (slots : Finset P) (home : P → I) (Parent : I → Prop)
    (shape : Shape I P) : Shape I P → Prop
  | same : Change slots home Parent shape shape
  | added {place : P} {item : I} {after : Shape I P} : Added home place item shape after →
      place ∈ slots → shape.target place = none → shape.folder (home place) = true →
      Parent (home place) → ¬ shape.live item → Change slots home Parent shape after
  | linked {place : P} {item : I} {after : Shape I P} : Linked place item shape after →
      place ∈ slots → shape.target place = none → shape.folder (home place) = true →
      Parent (home place) → shape.live item → shape.folder item = false →
      Change slots home Parent shape after
  | removed {place : P} {item : I} {after : Shape I P} : Removed home place item shape after →
      shape.target place = some item → (∀ q other, shape.target q = some other → home q ≠ item) →
      Change slots home Parent shape after

variable {slots : Finset P} {home : P → I} {root item : I} {place : P} {shape after : Shape I P}
  {Gone Parent : I → Prop}

/-! ## Counting -/

omit [DecidableEq I] in
theorem inner_eq_some {above : I} : shape.inner home place = some above ↔
    ∃ item, shape.target place = some item ∧ shape.folder item = true ∧ home place = above := by
  unfold Shape.inner
  cases shape.target place with
  | none => simp
  | some item => simp

theorem count_pos : 0 < shape.count slots home item ↔
    ∃ place ∈ slots, shape.target place = some item ∨ shape.inner home place = some item := by
  unfold Shape.count
  rw [Nat.add_pos_iff_pos_or_pos, Sharing.users_pos_iff, Sharing.users_pos_iff]
  simp only [and_or_left, exists_or]

theorem count_le_of_subset (target : ∀ place item, after.target place = some item → shape.target place = some item)
    (folder : ∀ place item, after.target place = some item → after.folder item = true →
      shape.folder item = true) (other : I) : after.count slots home other ≤ shape.count slots home other := by
  refine Nat.add_le_add (Finset.card_le_card fun q => ?_) (Finset.card_le_card fun q => ?_)
  · rw [Finset.mem_filter, Finset.mem_filter]
    exact fun member => ⟨member.1, target q other member.2⟩
  · simp only [Finset.mem_filter, inner_eq_some]
    rintro ⟨member, item, named, isFolder, here⟩
    exact ⟨member, item, target q item named, folder q item named isFolder, here⟩

section Sound

variable (sound : Sound slots home root shape)
include sound

theorem Sound.unnamed (none : shape.links item = 0) (place : P) : shape.target place ≠ some item := by
  intro named
  have used : 0 < shape.count slots home item :=
    count_pos.mpr ⟨place, sound.within place item named, .inl named⟩
  have counted := sound.counted item
  omega

theorem Sound.holder_links (named : shape.target place = some item)
    (isFolder : shape.folder item = true) : shape.links (home place) ≠ 0 := by
  have used : 0 < shape.count slots home (home place) := count_pos.mpr ⟨place,
    sound.within place item named, .inr (inner_eq_some.mpr ⟨item, named, isFolder, rfl⟩)⟩
  have counted := sound.counted (home place)
  omega

theorem Sound.count_fresh (fresh : ¬ shape.live item) : shape.count slots home item = 0 := by
  refine Nat.eq_zero_of_not_pos fun used => ?_
  obtain ⟨place, _, named | inner⟩ := count_pos.mp used
  · exact fresh (sound.named place item named)
  · obtain ⟨child, named, _, rfl⟩ := inner_eq_some.mp inner
    exact fresh (sound.live _ (sound.inside place child named))

/-- Names and folders may go. -/
theorem Sound.shrunk (top : after.folder root = true) (folder : ∀ other, after.folder other = true →
      shape.folder other = true ∧ after.live other ∧ after.parent other = shape.parent other)
    (target : ∀ q other, after.target q = some other →
      shape.target q = some other ∧ after.folder (home q) = true ∧ after.live other)
    (counted : ∀ other, after.count slots home other + (if other = root then 1 else 0) ≤
      after.links other) : Sound slots home root after where
  top := top
  live other isFolder := (folder other isFolder).2.1
  within q other found := sound.within q other (target q other found).1
  inside q other found := (target q other found).2.1
  named q other found := (target q other found).2.2
  below q other found := sound.below q other (target q other found).1
  single q again other found second isFolder := sound.single q again other
    (target q other found).1 (target again other second).1 (folder other isFolder).1
  back q other found isFolder := (folder other isFolder).2.2.trans
    (sound.back q other (target q other found).1 (folder other isFolder).1)
  counted := counted

theorem Sound.freed (freed : Freed home Gone shape after)
    (unlinked : ∀ item, Gone item → after.links item = 0) : Sound slots home root after := by
  have rooted : ¬ Gone root := by
    intro gone
    have counted := sound.counted root
    rw [freed.gone root gone, if_pos rfl] at counted
    omega
  refine sound.shrunk ((freed.folder root).mpr ⟨sound.top, rooted⟩) ?_ ?_ ?_
  · intro other isFolder
    obtain ⟨was, kept⟩ := (freed.folder other).mp isFolder
    exact ⟨was, (freed.live other).mpr ⟨sound.live other was, kept⟩, freed.parent other was kept⟩
  · intro q other found
    obtain ⟨old, kept⟩ := (freed.target q other).mp found
    have stays : ¬ Gone other := fun gone => sound.unnamed (freed.gone other gone) q old
    exact ⟨old, (freed.folder _).mpr ⟨sound.inside q other old, kept⟩,
      (freed.live other).mpr ⟨sound.named q other old, stays⟩⟩
  · intro other
    have fewer : after.count slots home other ≤ shape.count slots home other :=
      count_le_of_subset (fun q item found => ((freed.target q item).mp found).1)
        (fun _ item _ isFolder => ((freed.folder item).mp isFolder).1) other
    have counted := sound.counted other
    by_cases gone : Gone other
    · rw [freed.gone other gone] at counted
      omega
    · rw [freed.links other gone]
      omega

/-! ## Reaching items -/

theorem Sound.reach_live (reach : Reach home root shape item) : shape.live item := by
  cases reach with
  | root => exact sound.live root sound.top
  | step _ named => exact sound.named _ _ named

theorem Sound.reach_links (reach : Reach home root shape item) : shape.links item ≠ 0 := by
  cases reach with
  | root =>
    have counted := sound.counted root
    rw [if_pos rfl] at counted
    omega
  | step _ named => exact fun none => sound.unnamed none _ named

theorem Sound.reach_parent (reach : Reach home root shape item) (isFolder : shape.folder item = true) :
    item = root ∨ Reach home root shape (shape.parent item) := by
  cases reach with
  | root => exact .inl rfl
  | step above named =>
    refine .inr ?_
    rw [sound.back _ _ named isFolder]
    exact above

theorem Attached.kept (attached : Attached home root shape) (freed : Freed home Gone shape after)
    {q : P} {named : I} (found : shape.target q = some named) : after.target q = some named := by
  refine (freed.target q named).mpr ⟨found, fun gone => ?_⟩
  exact sound.reach_links (attached q named found) (freed.gone _ gone)

end Sound

omit [DecidableEq I] in
theorem Reach.mono (reach : Reach home root shape item)
    (kept : ∀ q named, shape.target q = some named → after.target q = some named) : Reach home root after item := by
  induction reach with
  | root => exact .root
  | step _ named ih => exact .step ih (kept _ _ named)

theorem Attached.freed (attached : Attached home root shape) (sound : Sound slots home root shape)
    (freed : Freed home Gone shape after) : Attached home root after := by
  intro q named found
  have old := ((freed.target q named).mp found).1
  exact (attached q named old).mono fun _ _ => attached.kept sound freed

theorem Exact.freed (exact : Exact slots home root shape) (attached : Attached home root shape)
    (sound : Sound slots home root shape) (freed : Freed home Gone shape after) : Exact slots home root after := by
  intro other live
  obtain ⟨was, kept⟩ := (freed.live other).mp live
  have fewer : after.count slots home other ≤ shape.count slots home other :=
    count_le_of_subset (fun q item found => ((freed.target q item).mp found).1)
      (fun _ item _ isFolder => ((freed.folder item).mp isFolder).1) other
  have more : shape.count slots home other ≤ after.count slots home other :=
    count_le_of_subset (fun q item => attached.kept sound freed) (fun q item found isFolder => (freed.folder item).mpr
        ⟨isFolder, fun gone => sound.unnamed (freed.gone item gone) q found⟩) other
  have before := exact other was
  rw [freed.links other kept]
  omega

/-- The places on the way to an item, the last one first. -/
inductive Walk (home : P → I) (root : I) (shape : Shape I P) : List P → I → Prop
  | root : Walk home root shape [] root
  | step {path : List P} {place : P} {item : I} : Walk home root shape path (home place) →
      shape.target place = some item → Walk home root shape (place :: path) item

theorem Walk.unique (sound : Sound slots home root shape) {path other : List P}
    (walk : Walk home root shape path item) (again : Walk home root shape other item)
    (isFolder : shape.folder item = true) : path = other := by
  induction walk generalizing other with
  | root =>
    cases again with
    | root => rfl
    | step _ named => exact absurd rfl (sound.below _ _ named)
  | @step path place item _ named ih =>
    cases again with
    | root => exact absurd rfl (sound.below _ _ named)
    | @step rest last _ above found =>
      obtain rfl := sound.single place last item named found isFolder
      rw [ih above (sound.inside place item named)]

/-! ## What the changes keep -/

section Keeping

variable [DecidableEq P] {value : Option I}

omit [DecidableEq I] in
/-- After a place has been assigned, a name is the new one or an old one. -/
theorem named_of_set {other : P} {named : I} (target : after.target = update shape.target place value)
    (found : after.target other = some named) :
    other = place ∧ value = some named ∨ other ≠ place ∧ shape.target other = some named := by
  by_cases same : other = place
  · rw [target, same, update_self] at found
    exact .inl ⟨same, found⟩
  · rw [target, update_of_ne same] at found
    exact .inr ⟨same, found⟩

omit [DecidableEq I] in
theorem inner_update (target : after.target = update shape.target place value)
    (folder : ∀ other named, shape.target other = some named → after.folder named = shape.folder named) :
    after.inner home = update (shape.inner home) place (after.inner home place) := by
  funext other
  by_cases same : other = place
  · rw [same, update_self]
  · rw [update_of_ne same, Shape.inner, Shape.inner, target, update_of_ne same]
    cases named : shape.target other with
    | none => rfl
    | some item => rw [Option.any_some, Option.any_some, folder other item named]

theorem count_set (member : place ∈ slots) (target : after.target = update shape.target place value)
    (folder : ∀ other named, shape.target other = some named → after.folder named = shape.folder named) (other : I) :
    after.count slots home other + (if shape.target place = some other then 1 else 0) +
        (if shape.inner home place = some other then 1 else 0) =
      shape.count slots home other + (if value = some other then 1 else 0) +
        if after.inner home place = some other then 1 else 0 := by
  have names := Sharing.users_balance shape.target member value (some other)
  have inners := Sharing.users_balance (shape.inner home) member (after.inner home place) (some other)
  rw [← inner_update target folder] at inners
  rw [← target] at names
  unfold Shape.count
  omega

/-- The links of an item change by as many as its places, or the item is new. -/
theorem Change.balance (change : Change slots home Parent shape after)
    (sound : Sound slots home root shape) (other : I) :
    (other ≠ root ∧ after.count slots home other = after.links other) ∨
      (after.live other → shape.live other) ∧ after.count slots home other + shape.links other =
        shape.count slots home other + after.links other := by
  cases change with
  | same => exact .inr ⟨id, rfl⟩
  | @added place item _ added member empty holder _ fresh =>
    have apart {other : I} (live : shape.live other) : other ≠ item :=
      fun same => fresh (same ▸ live)
    have count : after.count slots home other + _ + _ = _ := count_set member added.target
      (fun q named found => added.folder named (apart (sound.named q named found))) other
    have named : after.target place = some item := by rw [added.target, update_self]
    simp only [inner_eq_some, empty, named, Option.some.injEq, reduceCtorEq, false_and, exists_false,
      if_false, exists_eq_left'] at count
    by_cases same : other = item
    · subst same
      have away : home place ≠ other := apart (sound.live _ holder)
      rw [sound.count_fresh fresh, if_pos rfl, if_neg fun both => away both.2] at count
      exact .inl ⟨(apart (sound.live root sound.top)).symm, count.trans added.one.symm⟩
    · have links := added.links other same
      rw [if_neg (Ne.symm same)] at count
      exact .inr ⟨fun live => ((added.live other).mp live).resolve_left same, by omega⟩
  | @linked place item _ linked member empty _ _ _ file =>
    have count : after.count slots home other + _ + _ = _ :=
      count_set member linked.target (fun _ _ _ => by rw [linked.folder]) other
    have named : after.target place = some item := by rw [linked.target, update_self]
    have links := linked.links other
    simp only [inner_eq_some, empty, named, linked.folder, file, Option.some.injEq, reduceCtorEq,
      false_and, exists_false, if_false, exists_eq_left', Bool.false_eq_true] at count
    exact .inr ⟨(linked.live other).mp, by omega⟩
  | @removed place item _ removed named _ =>
    have count : after.count slots home other + _ + _ = _ := count_set (sound.within place item named)
      removed.target (fun _ _ _ => by rw [removed.folder]) other
    have empty : after.target place = none := by rw [removed.target, update_self]
    have links := removed.links other
    simp only [inner_eq_some, empty, named, Option.some.injEq, reduceCtorEq, false_and, exists_false,
      if_false, exists_eq_left'] at count
    exact .inr ⟨(removed.live other).mp, by omega⟩

/-- A place names an item that is no folder yet. -/
theorem Sound.put (sound : Sound slots home root shape)
    (target : after.target = update shape.target place (some item)) (member : place ∈ slots)
    (holder : shape.folder (home place) = true) (file : shape.folder item = false)
    (live : ∀ other, after.live other ↔ other = item ∨ shape.live other)
    (folder : ∀ other, other ≠ item → after.folder other = shape.folder other)
    (parent : ∀ other, other ≠ item → shape.folder other = true → after.parent other = shape.parent other)
    (single : after.folder item = true → after.parent item = home place ∧ ∀ q, shape.target q ≠ some item)
    (counted : ∀ other, after.count slots home other + (if other = root then 1 else 0) ≤
      after.links other) : Sound slots home root after := by
  have apart {other : I} (isFolder : shape.folder other = true) : other ≠ item := by
    rintro rfl
    exact absurd (file.symm.trans isFolder) (by decide)
  have still {other : I} (isFolder : shape.folder other = true) : after.folder other = true :=
    (folder other (apart isFolder)).trans isFolder
  have known {q : P} {named : I} (found : shape.target q = some named)
      (isFolder : after.folder named = true) : named ≠ item ∧ shape.folder named = true := by
    have old : named ≠ item := by
      rintro rfl
      exact (single isFolder).2 q found
    exact ⟨old, (folder named old).symm.trans isFolder⟩
  refine ⟨still sound.top, fun other isFolder => ?_, ?_, ?_, ?_, ?_, ?_, ?_, counted⟩
  · by_cases same : other = item
    · exact (live other).mpr (.inl same)
    · rw [folder other same] at isFolder
      exact (live other).mpr (.inr (sound.live other isFolder))
  · intro q named found
    obtain ⟨rfl, _⟩ | ⟨_, old⟩ := named_of_set target found
    · exact member
    · exact sound.within q named old
  · intro q named found
    obtain ⟨rfl, _⟩ | ⟨_, old⟩ := named_of_set target found
    · exact still holder
    · exact still (sound.inside q named old)
  · intro q named found
    obtain ⟨_, ⟨⟩⟩ | ⟨_, old⟩ := named_of_set target found
    · exact (live item).mpr (.inl rfl)
    · exact (live named).mpr (.inr (sound.named q named old))
  · intro q named found
    obtain ⟨_, ⟨⟩⟩ | ⟨_, old⟩ := named_of_set target found
    · exact (apart sound.top).symm
    · exact sound.below q named old
  · intro q other named found again isFolder
    obtain ⟨rfl, ⟨⟩⟩ | ⟨_, old⟩ := named_of_set target found
    · obtain ⟨rfl, _⟩ | ⟨_, older⟩ := named_of_set target again
      · rfl
      · exact absurd older ((single isFolder).2 other)
    · obtain ⟨isOld, was⟩ := known old isFolder
      obtain ⟨_, ⟨⟩⟩ | ⟨_, older⟩ := named_of_set target again
      · exact absurd rfl isOld
      · exact sound.single q other named old older was
  · intro q named found isFolder
    obtain ⟨rfl, ⟨⟩⟩ | ⟨_, old⟩ := named_of_set target found
    · exact (single isFolder).1
    · obtain ⟨isOld, was⟩ := known old isFolder
      exact (parent named isOld was).trans (sound.back q named old was)

theorem Sound.change (sound : Sound slots home root shape)
    (change : Change slots home Parent shape after) : Sound slots home root after := by
  have counted (other : I) : after.count slots home other + (if other = root then 1 else 0) ≤ after.links other := by
    have before := sound.counted other
    obtain ⟨apart, new⟩ | ⟨_, balance⟩ := change.balance sound other
    · rw [if_neg apart, new, Nat.add_zero]
    · omega
  cases change with
  | same => exact sound
  | @added place item _ added member empty holder _ fresh =>
    have file : shape.folder item = false :=
      Bool.eq_false_iff.mpr fun isFolder => fresh (sound.live item isFolder)
    exact sound.put added.target member holder file added.live added.folder added.parent
      (fun isFolder => ⟨added.under isFolder, fun q found => fresh (sound.named q item found)⟩) counted
  | @linked place item _ linked member empty holder _ alive file =>
    refine sound.put linked.target member holder file (fun other => ?_)
      (fun other _ => by rw [linked.folder]) (fun other _ => linked.parent other)
      (fun isFolder => ?_) counted
    · rw [linked.live, or_iff_right_of_imp]
      rintro rfl
      exact alive
    · rw [linked.folder, file] at isFolder
      cases isFolder
  | @removed place item _ removed named _ =>
    have folder := removed.folder
    refine sound.shrunk (folder ▸ sound.top) (fun other isFolder => ?_) (fun q other found => ?_) counted
    · rw [folder] at isFolder
      exact ⟨isFolder, (removed.live other).mpr (sound.live other isFolder), removed.parent other isFolder⟩
    · obtain ⟨_, ⟨⟩⟩ | ⟨_, old⟩ := named_of_set removed.target found
      exact ⟨old, folder ▸ sound.inside q other old, (removed.live other).mpr (sound.named q other old)⟩

theorem Exact.change (exact : Exact slots home root shape) (sound : Sound slots home root shape)
    (change : Change slots home Parent shape after) : Exact slots home root after := by
  intro other live
  obtain ⟨apart, new⟩ | ⟨was, balance⟩ := change.balance sound other
  · rw [if_neg apart, new, Nat.add_zero]
  · have before := exact other (was live)
    omega

omit [DecidableEq I] in
theorem Attached.put (attached : Attached home root shape) (empty : shape.target place = none)
    (target : after.target = update shape.target place (some item))
    (reach : Reach home root shape (home place)) : Attached home root after := by
  have kept (q : P) (named : I) (found : shape.target q = some named) : after.target q = some named := by
    have apart : q ≠ place := by
      rintro rfl
      exact absurd (empty.symm.trans found) (by simp)
    rw [target, update_of_ne apart]
    exact found
  intro q named found
  obtain ⟨rfl, _⟩ | ⟨_, old⟩ := named_of_set target found
  · exact reach.mono kept
  · exact (attached q named old).mono kept

omit [DecidableEq I] in
theorem Attached.clear (attached : Attached home root shape) (target : after.target = update shape.target place none)
    (named : shape.target place = some item) (empty : ∀ q other, shape.target q = some other → home q ≠ item) :
    Attached home root after := by
  have still {other : I} (reach : Reach home root shape other) (apart : other ≠ item) :
      Reach home root after other := by
    induction reach with
    | root => exact .root
    | @step q other _ found ih =>
      refine .step (ih (empty q other found)) ?_
      have elsewhere : q ≠ place := by
        rintro rfl
        exact apart (Option.some.inj (found.symm.trans named))
      rw [target, update_of_ne elsewhere]
      exact found
  intro q other found
  obtain ⟨_, ⟨⟩⟩ | ⟨_, old⟩ := named_of_set target found
  exact still (attached q other old) (empty q other old)

theorem Attached.change (attached : Attached home root shape) (change : Change slots home Parent shape after)
    (reach : ∀ above, Parent above → Reach home root shape above) : Attached home root after := by
  cases change with
  | same => exact attached
  | added puts _ empty _ parent _ | linked puts _ empty _ parent _ _ =>
    exact attached.put empty puts.target (reach _ parent)
  | removed removed named empty => exact attached.clear removed.target named empty

end Keeping

end Shapes

end Xv6Dedup.Hierarchy
