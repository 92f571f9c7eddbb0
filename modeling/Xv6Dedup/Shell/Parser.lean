import Mathlib.Data.List.DropRight
import Mathlib.Tactic

/-!
# The parser of the shell

The functions of `sh.c` that turn a line into a command. A pointer into the line is
what is left of the line from there on. A word is the text between `q` and `eq`;
`nulterminate` makes it a string of its own.
-/

set_option autoImplicit false

namespace Xv6Dedup.Shell

def MAXARGS : Nat := 10

abbrev Text := List Char

inductive Cmd where
  | exec (argv : List Text)
  | redir (cmd : Cmd) (file : Text) (mode fd : Nat)
  | pipe (left right : Cmd)
  | list (left right : Cmd)
  | back (cmd : Cmd)

def whitespace : List Char := [' ', '\t', '\r', '\n', '\x0b']

def symbols : List Char := ['<', '|', '>', '&', ';', '(', ')']

/-! ## Tokens -/

inductive Op where
  | less
  | greater
  | append
  deriving DecidableEq, Repr

inductive Token where
  | bar
  | amp
  | semi
  | opens
  | closes
  | redir (op : Op)
  | word (text : Text)
  deriving DecidableEq, Repr

def skip (s : Text) : Text := s.dropWhile (· ∈ whitespace)

def isWord (c : Char) : Bool := c ∉ whitespace && c ∉ symbols

/-- The token, or `none` at the end of the line, and where it leaves off. -/
def gettoken (s : Text) : Option Token × Text :=
  match skip s with
  | [] => (none, [])
  | '|' :: s => (some .bar, skip s)
  | '(' :: s => (some .opens, skip s)
  | ')' :: s => (some .closes, skip s)
  | ';' :: s => (some .semi, skip s)
  | '&' :: s => (some .amp, skip s)
  | '<' :: s => (some (.redir .less), skip s)
  | '>' :: '>' :: s => (some (.redir .append), skip s)
  | '>' :: s => (some (.redir .greater), skip s)
  | s => (some (.word (s.takeWhile isWord)), skip (s.dropWhile isWord))

/-- Whether the next character is one of `toks`; whitespace before it is skipped. -/
def peek (s toks : Text) : Bool × Text :=
  match skip s with
  | [] => (false, [])
  | c :: s => (decide (c ∈ toks), c :: s)

/-! ## Commands -/

inductive Failure where
  | panic (message : String)
  | fuel
  deriving DecidableEq, Repr

abbrev Parses := Except Failure (Cmd × Text)

def O_RDONLY : Nat := 0x000
def O_WRONLY : Nat := 0x001
def O_CREATE : Nat := 0x200

def Op.mode : Op → Nat
  | .less => O_RDONLY
  | .greater | .append => O_WRONLY ||| O_CREATE

def Op.fd : Op → Nat
  | .less => 0
  | .greater | .append => 1

def redircmd (cmd : Cmd) (tok : Option Token) (file : Text) : Cmd :=
  match tok with
  | some (.redir op) => .redir cmd file op.mode op.fd
  | _ => cmd

/-- Store an argument in the command that the redirections are about. -/
def Cmd.addArg : Cmd → Text → Cmd
  | .exec argv, text => .exec (argv ++ [text])
  | .redir cmd file mode fd, text => .redir (cmd.addArg text) file mode fd
  | cmd, _ => cmd

def parseredirs : Nat → Cmd → Text → Parses
  | 0, _, _ => .error .fuel
  | n + 1, cmd, s =>
    let (more, s) := peek s ['<', '>']
    if more then
      let (tok, s) := gettoken s
      match gettoken s with
      | (some (.word file), s) => parseredirs n (redircmd cmd tok file) s
      | _ => .error (.panic "missing file for redirection")
    else .ok (cmd, s)

/-- The loop of `parseexec`. -/
def parseargs : Nat → Nat → Cmd → Text → Parses
  | 0, _, _, _ => .error .fuel
  | n + 1, argc, ret, s =>
    let (stop, s) := peek s ['|', ')', '&', ';']
    if stop then .ok (ret, s)
    else
      match gettoken s with
      | (none, s) => .ok (ret, s)
      | (some (.word text), s) =>
        if MAXARGS ≤ argc + 1 then .error (.panic "too many args")
        else do
          let (ret, s) ← parseredirs n (ret.addArg text) s
          parseargs n (argc + 1) ret s
      | (some _, _) => .error (.panic "syntax")

/-- The loop of `parseline`. -/
def parsebacks : Nat → Cmd → Text → Parses
  | 0, _, _ => .error .fuel
  | n + 1, cmd, s =>
    let (more, s) := peek s ['&']
    if more then parsebacks n (.back cmd) (gettoken s).2 else .ok (cmd, s)

def parseblock (n : Nat) (parseline : Text → Parses) (s : Text) : Parses :=
  let (opens, s) := peek s ['(']
  if opens = false then .error (.panic "parseblock")
  else do
    let (cmd, s) ← parseline (gettoken s).2
    let (closes, s) := peek s [')']
    if closes = false then .error (.panic "syntax - missing )")
    else parseredirs n cmd (gettoken s).2

mutual

def parseline : Nat → Text → Parses
  | 0, _ => .error .fuel
  | n + 1, s => do
    let (cmd, s) ← parsepipe n s
    let (cmd, s) ← parsebacks n cmd s
    let (more, s) := peek s [';']
    if more then do
      let (rest, s) ← parseline n (gettoken s).2
      pure (.list cmd rest, s)
    else pure (cmd, s)

def parsepipe : Nat → Text → Parses
  | 0, _ => .error .fuel
  | n + 1, s => do
    let (cmd, s) ← parseexec n s
    let (more, s) := peek s ['|']
    if more then do
      let (right, s) ← parsepipe n (gettoken s).2
      pure (.pipe cmd right, s)
    else pure (cmd, s)

def parseexec : Nat → Text → Parses
  | 0, _ => .error .fuel
  | n + 1, s =>
    let (block, s) := peek s ['(']
    if block then parseblock n (fun s => parseline n s) s
    else do
      let (ret, s) ← parseredirs n (.exec []) s
      parseargs n 0 ret s

end

/-- The rounds and calls that a line may need are counted by its length. -/
def parsecmd (s : Text) : Except Failure Cmd := do
  let (cmd, s) ← parseline (3 * s.length + 4) s
  let (_, s) := peek s []
  if s ≠ [] then .error (.panic "syntax") else pure cmd

/-! ## The tokens of a line -/

/-- The character that `peek` sees in front of a token; words have none of `symbols`. -/
def Token.symbol : Token → Option Char
  | .bar => some '|'
  | .amp => some '&'
  | .semi => some ';'
  | .opens => some '('
  | .closes => some ')'
  | .redir .less => some '<'
  | .redir _ => some '>'
  | .word _ => none

theorem skip_length (s : Text) : (skip s).length ≤ s.length := List.length_dropWhile_le _ s

theorem skip_skip (s : Text) : skip (skip s) = skip s := List.dropWhile_idempotent ..

theorem gettoken_skip (s : Text) : gettoken (skip s) = gettoken s := by
  unfold gettoken
  rw [skip_skip]

theorem peek_skip (s toks : Text) : peek (skip s) toks = peek s toks := by
  unfold peek
  rw [skip_skip]

variable {s : Text} {t : Token}

theorem gettoken_nil (ends : skip s = []) : gettoken s = (none, []) := by
  unfold gettoken
  rw [ends]

theorem gettoken_cons {rest : Text} {c : Char} (starts : skip s = c :: rest) :
    ∃ t next, gettoken s = (some t, next) ∧ next.length ≤ rest.length ∧
      t.symbol = if c ∈ symbols then some c else none := by
  have notSpace : c ∉ whitespace := by
    have head := List.dropWhile_get_zero_not (p := (· ∈ whitespace)) s
    unfold skip at starts
    simpa [starts] using head
  unfold gettoken
  rw [starts]
  split
  case h_10 =>
    rename_i notBar notOpens notCloses notSemi notAmp notLess notAppend notGreater
    have notSymbol : c ∉ symbols := by
      intro member
      simp only [symbols, List.mem_cons, List.not_mem_nil, or_false] at member
      rcases member with rfl | rfl | rfl | rfl | rfl | rfl | rfl
      · exact notLess _ rfl
      · exact notBar _ rfl
      · exact notGreater _ rfl
      · exact notAmp _ rfl
      · exact notSemi _ rfl
      · exact notOpens _ rfl
      · exact notCloses _ rfl
    refine ⟨_, _, rfl, ?_, by rw [if_neg notSymbol]; rfl⟩
    refine (skip_length _).trans ?_
    rw [List.dropWhile_cons_of_pos (by simp [isWord, notSpace, notSymbol])]
    exact List.length_dropWhile_le ..
  case h_1 same => cases same
  case h_8 same =>
    cases same
    exact ⟨_, _, rfl, (skip_length _).trans (Nat.le_succ _), rfl⟩
  all_goals
    rename_i same
    cases same
    exact ⟨_, _, rfl, skip_length _, rfl⟩

theorem gettoken_shorter {next : Text} (gets : gettoken s = (some t, next)) : next.length < s.length := by
  cases starts : skip s with
  | nil =>
    rw [gettoken_nil starts] at gets
    cases gets
  | cons c rest =>
    obtain ⟨t, next, is, shorter, _⟩ := gettoken_cons starts
    cases is.symm.trans gets
    have length := skip_length s
    rw [starts] at length
    exact Nat.lt_of_lt_of_le (Nat.lt_succ_of_le shorter) length

/-- The tokens that `gettoken` finds one after the other. -/
def tokens (s : Text) : List Token :=
  match gets : gettoken s with
  | (none, _) => []
  | (some t, next) => t :: tokens next
  termination_by s.length
  decreasing_by exact gettoken_shorter gets

theorem tokens_none {next : Text} (gets : gettoken s = (none, next)) : tokens s = [] := by
  unfold tokens
  split
  · rfl
  · rename_i is
    cases is.symm.trans gets

theorem tokens_some {next : Text} (gets : gettoken s = (some t, next)) : tokens s = t :: tokens next := by
  conv_lhs => unfold tokens
  split
  · rename_i is
    cases is.symm.trans gets
  · rename_i is
    cases is.symm.trans gets
    rfl

theorem gettoken_of_cons {ts : List Token} (is : tokens s = t :: ts) :
    ∃ next, gettoken s = (some t, next) ∧ tokens next = ts := by
  match gets : gettoken s with
  | (none, next) => cases (tokens_none gets).symm.trans is
  | (some first, next) =>
    cases (tokens_some gets).symm.trans is
    exact ⟨next, rfl, rfl⟩

theorem gettoken_of_nil (is : tokens s = []) : ∃ next, gettoken s = (none, next) ∧ tokens next = [] := by
  cases starts : skip s with
  | nil => exact ⟨[], gettoken_nil starts, tokens_none (gettoken_nil rfl)⟩
  | cons c rest =>
    obtain ⟨t, next, gets, _⟩ := gettoken_cons starts
    cases (tokens_some gets).symm.trans is

theorem tokens_skip (s : Text) : tokens (skip s) = tokens s := by
  match gets : gettoken s with
  | (none, next) => rw [tokens_none gets, tokens_none ((gettoken_skip s).trans gets)]
  | (some t, next) => rw [tokens_some gets, tokens_some ((gettoken_skip s).trans gets)]

theorem tokens_length (s : Text) : (tokens s).length ≤ s.length := by
  match gets : gettoken s with
  | (none, next) =>
    rw [tokens_none gets]
    exact Nat.zero_le _
  | (some t, next) =>
    have shorter := gettoken_shorter gets
    have rest := tokens_length next
    rw [tokens_some gets, List.length_cons]
    omega
  termination_by s.length

/-- The first token is one that `toks` announces. -/
def Announced (toks : Text) (ts : List Token) : Prop := ∃ t ∈ ts.head?, ∃ c ∈ toks, t.symbol = some c

instance (toks : Text) (ts : List Token) : Decidable (Announced toks ts) :=
  inferInstanceAs (Decidable (∃ t ∈ ts.head?, _))

theorem peek_eq (s : Text) {toks : Text} (are : toks ⊆ symbols) :
    peek s toks = (decide (Announced toks (tokens s)), skip s) := by
  unfold peek
  cases starts : skip s with
  | nil =>
    rw [tokens_none (gettoken_nil starts)]
    rfl
  | cons c rest =>
    obtain ⟨t, next, gets, _, symbol⟩ := gettoken_cons starts
    rw [tokens_some gets]
    have iff : c ∈ toks ↔ Announced toks (t :: tokens next) := by
      constructor
      · intro member
        exact ⟨t, rfl, c, member, by rw [symbol, if_pos (are member)]⟩
      · rintro ⟨first, isFirst, c', member, is⟩
        cases (isFirst : some t = some first)
        rw [symbol, if_pos] at is
        · cases is
          exact member
        · by_contra notSymbol
          rw [if_neg notSymbol] at is
          cases is
    simp only [iff]

end Xv6Dedup.Shell
