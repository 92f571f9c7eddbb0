import Mathlib.Computability.Language
import Xv6Dedup.Base.Bytes

/-!
# The matcher of grep

A string is the list of its characters before the terminating NUL, a pointer into
it the rest of the list.
-/

set_option autoImplicit false

namespace Xv6Dedup.Grep

abbrev caret : Byte := 94
abbrev dollar : Byte := 36
abbrev star : Byte := 42
abbrev dot : Byte := 46

mutual

/-- Search for `re` at the beginning of `text`. -/
def matchhere (re text : List Byte) : Bool :=
  match re with
  | [] => true
  | c :: re =>
    if re.head? = some star then matchstar c re.tail text
    else if c = dollar ∧ re = [] then text = []
    else match text with
      | [] => false
      | d :: text => if c = dot ∨ c = d then matchhere re text else false
termination_by (re.length, text.length, 0)
decreasing_by
  · exact Prod.Lex.left _ _ (by simp only [List.length_tail, List.length_cons]; omega)
  · exact Prod.Lex.left _ _ (Nat.lt_succ_self _)

/-- Search for `c*re` at the beginning of `text`. -/
def matchstar (c : Byte) (re text : List Byte) : Bool :=
  if matchhere re text then true
  else match text with
    | [] => false
    | d :: text => if d = c ∨ c = dot then matchstar c re text else false
termination_by (re.length, text.length, 1)
decreasing_by
  · exact Prod.Lex.right _ (Prod.Lex.right _ Nat.zero_lt_one)
  · exact Prod.Lex.right _ (Prod.Lex.left _ _ (by simp))

end

/-- The loop of `match`, over the ends of the text. -/
def matchFrom (re : List Byte) : (text : List Byte) → Bool
  | [] => matchhere re []
  | d :: text => if matchhere re (d :: text) then true else matchFrom re text

/-- The function `match`. -/
def matchText (re text : List Byte) : Bool :=
  if re.head? = some caret then matchhere re.tail text else matchFrom re text

/-! ## Regular expressions -/

inductive Item where
  | one (c : Byte)
  | many (c : Byte)
  /-- The end of the text. -/
  | final

/-- The items of a pattern after the anchor. -/
def items : List Byte → List Item
  | [] => []
  | [c] => [if c = dollar then .final else .one c]
  | c :: d :: re => if d = star then .many c :: items re else .one c :: items (d :: re)

def single (c : Byte) : Language Byte := {word | ∃ d, (c = dot ∨ c = d) ∧ word = [d]}

open Computability in
def Item.language : Item → Language Byte
  | .one c => single c
  | .many c => (single c)∗
  | .final => 1

/-- The word is in the language of the items, and the end of the text is where
they ask for it. -/
structure Reads (is : List Item) (word after : List Byte) : Prop where
  word : word ∈ (is.map Item.language).prod
  final : .final ∈ is → after = []

def Accepts (is : List Item) (text : List Byte) : Prop :=
  ∃ word after, text = word ++ after ∧ Reads is word after

section Accepts

variable {is : List Item} {c : Byte} {text : List Byte}

theorem accepts_nil : Accepts [] text := ⟨[], text, rfl, rfl, nofun⟩

theorem accepts_final : Accepts [.final] text ↔ text = [] := by
  constructor
  · rintro ⟨word, after, rfl, reads⟩
    have empty : word = [] := by simpa [Item.language] using reads.word
    rw [empty, reads.final List.mem_cons_self, List.nil_append]
  · rintro rfl
    exact ⟨[], [], rfl, by simp [Item.language], fun _ => rfl⟩

private theorem mem_single_mul {word : List Byte} {rest : Language Byte} :
    word ∈ single c * rest ↔ ∃ d tail, word = d :: tail ∧ (c = dot ∨ c = d) ∧ tail ∈ rest := by
  constructor
  · rintro ⟨_, ⟨d, fits, rfl⟩, tail, member, rfl⟩
    exact ⟨d, tail, rfl, fits, member⟩
  · rintro ⟨d, tail, rfl, fits, member⟩
    exact ⟨[d], ⟨d, fits, rfl⟩, tail, member, rfl⟩

theorem accepts_one : Accepts (.one c :: is) text ↔
    ∃ d rest, text = d :: rest ∧ (c = dot ∨ c = d) ∧ Accepts is rest := by
  constructor
  · rintro ⟨word, after, rfl, member, final⟩
    obtain ⟨d, tail, rfl, fits, inside⟩ := mem_single_mul.mp member
    exact ⟨d, tail ++ after, rfl, fits, tail, after, rfl, inside, fun last => final (List.mem_cons_of_mem _ last)⟩
  · rintro ⟨d, _, rfl, fits, tail, after, rfl, inside, final⟩
    exact ⟨d :: tail, after, rfl, mem_single_mul.mpr ⟨d, tail, rfl, fits, inside⟩,
      fun last => final ((List.mem_cons.mp last).resolve_left nofun)⟩

open Computability in
private theorem mem_kstar_mul {word : List Byte} {rest : Language Byte} :
    word ∈ (single c)∗ * rest ↔ word ∈ rest ∨ word ∈ single c * ((single c)∗ * rest) := by
  have unfolded : (single c)∗ * rest = rest + single c * ((single c)∗ * rest) := by
    conv_lhs => rw [← Language.one_add_self_mul_kstar_eq_kstar (single c)]
    rw [add_mul, one_mul, mul_assoc]
  rw [← Language.mem_add, ← unfolded]

theorem accepts_many : Accepts (.many c :: is) text ↔ Accepts is text ∨
    ∃ d rest, text = d :: rest ∧ (c = dot ∨ c = d) ∧ Accepts (.many c :: is) rest := by
  have tails : Item.final ∈ Item.many c :: is ↔ .final ∈ is :=
    ⟨fun last => (List.mem_cons.mp last).resolve_left nofun, List.mem_cons_of_mem _⟩
  constructor
  · rintro ⟨word, after, rfl, member, final⟩
    cases mem_kstar_mul.mp member with
    | inl inside => exact .inl ⟨word, after, rfl, inside, fun last => final (tails.mpr last)⟩
    | inr again =>
      obtain ⟨d, tail, rfl, fits, inside⟩ := mem_single_mul.mp again
      exact .inr ⟨d, tail ++ after, rfl, fits, tail, after, rfl, inside, final⟩
  · rintro (⟨word, after, rfl, inside, final⟩ | ⟨d, _, rfl, fits, tail, after, rfl, inside, final⟩)
    · exact ⟨word, after, rfl, mem_kstar_mul.mpr (.inl inside), fun last => final (tails.mp last)⟩
    · exact ⟨d :: tail, after, rfl, mem_kstar_mul.mpr (.inr (mem_single_mul.mpr ⟨d, tail, rfl, fits, inside⟩)), final⟩

end Accepts

/-! ## The matcher is right -/

section Match

variable {re : List Byte} {c : Byte}

theorem matchstar_iff (here : ∀ text, matchhere re text = true ↔ Accepts (items re) text)
    (text : List Byte) : matchstar c re text = true ↔ Accepts (.many c :: items re) text := by
  induction text with
  | nil =>
    rw [matchstar, accepts_many, ← here]
    simp
  | cons d text ih =>
    rw [matchstar, accepts_many, ← here]
    by_cases now : matchhere re (d :: text) = true
    · simp [now]
    · simp only [now, Bool.false_eq_true, if_false, false_or, List.cons.injEq]
      by_cases fits : d = c ∨ c = dot
      · rw [if_pos fits, ih]
        refine ⟨fun later => ⟨d, text, ⟨rfl, rfl⟩, fits.symm.imp_right Eq.symm, later⟩, ?_⟩
        rintro ⟨_, _, ⟨rfl, rfl⟩, _, later⟩
        exact later
      · rw [if_neg fits]
        refine ⟨nofun, ?_⟩
        rintro ⟨_, _, ⟨rfl, rfl⟩, fitting, _⟩
        exact absurd (fitting.symm.imp_left Eq.symm) fits

private theorem matchhere_cons (text : List Byte) (here : ∀ text, matchhere re text = true ↔
    Accepts (items re) text) (plain : re.head? ≠ some star) (inner : ¬(c = dollar ∧ re = [])) :
    matchhere (c :: re) text = true ↔ Accepts (.one c :: items re) text := by
  rw [matchhere.eq_def, accepts_one]
  simp only [if_neg plain, if_neg inner]
  cases text with
  | nil => simp
  | cons d text => simp [here]

theorem matchhere_iff (re text : List Byte) : matchhere re text = true ↔ Accepts (items re) text := by
  have nil : ∀ text, matchhere [] text = true ↔ Accepts (items []) text := fun text => by
    simp [matchhere.eq_def, items, accepts_nil]
  induction re using items.induct generalizing text with
  | case1 => exact nil text
  | case2 c =>
    by_cases last : c = dollar
    · simp [matchhere.eq_def, items, last, accepts_final]
    · rw [items, if_neg last]
      exact matchhere_cons text nil (by simp) fun both => last both.1
  | case3 c re ih =>
    rw [items, matchhere.eq_def]
    simpa using matchstar_iff ih text
  | case4 c d re other ih =>
    rw [items, if_neg other]
    exact matchhere_cons text ih (by simpa using other) (by simp)

theorem matchFrom_iff (re text : List Byte) : matchFrom re text = true ↔
    ∃ before rest, text = before ++ rest ∧ Accepts (items re) rest := by
  induction text with
  | nil => simp [matchFrom, matchhere_iff]
  | cons d text ih =>
    rw [matchFrom, ite_eq_left_iff, ih, matchhere_iff]
    constructor
    · intro found
      by_cases now : Accepts (items re) (d :: text)
      · exact ⟨[], d :: text, rfl, now⟩
      · obtain ⟨before, rest, rfl, later⟩ := found now
        exact ⟨d :: before, rest, rfl, later⟩
    · rintro ⟨before, rest, split, accepts⟩ later
      cases before with
      | nil => exact absurd (split ▸ accepts) later
      | cons e before =>
        obtain ⟨rfl, rfl⟩ := List.cons.inj split
        exact ⟨before, rest, rfl, accepts⟩

/-- `match` finds a substring in the language of the pattern, for an anchored
pattern a prefix. -/
theorem match_iff_reads (re text : List Byte) : matchText re text = true ↔
    ∃ before word after, text = before ++ (word ++ after) ∧
      if re.head? = some caret then before = [] ∧ Reads (items re.tail) word after
      else Reads (items re) word after := by
  unfold matchText
  split
  · rw [matchhere_iff]
    constructor
    · rintro ⟨word, after, rfl, reads⟩
      exact ⟨[], word, after, rfl, rfl, reads⟩
    · rintro ⟨_, word, after, rfl, rfl, reads⟩
      exact ⟨word, after, rfl, reads⟩
  · rw [matchFrom_iff]
    constructor
    · rintro ⟨before, _, rfl, word, after, rfl, reads⟩
      exact ⟨before, word, after, rfl, reads⟩
    · rintro ⟨before, word, after, rfl, reads⟩
      exact ⟨before, _, rfl, word, after, rfl, reads⟩

end Match

end Xv6Dedup.Grep
