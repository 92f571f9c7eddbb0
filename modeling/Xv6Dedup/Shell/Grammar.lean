import Xv6Dedup.Shell.Parser

/-!
# The grammar of the shell

`parsecmd` returns a command exactly when the tokens of the line derive from the
grammar, and then the command of the derivation. Loops and calls are never cut
short.
-/

set_option autoImplicit false

namespace Xv6Dedup.Shell

abbrev Redir := Op × Text

def Redir.tokens (r : Redir) : List Token := [.redir r.1, .word r.2]

def Cmd.wrap (cmd : Cmd) (r : Redir) : Cmd := .redir cmd r.2 r.1.mode r.1.fd

abbrev Group := Text × List Redir

def Group.tokens (g : Group) : List Token := .word g.1 :: g.2.flatMap Redir.tokens

def backs (k : Nat) (cmd : Cmd) : Cmd := Cmd.back^[k] cmd

inductive Part where
  | line
  | pipe
  | exec

/-- The grammar: `line ::= pipe '&'* [';' line]`, `pipe ::= exec ['|' pipe]`,
`exec ::= '(' line ')' redir* | redir* (word redir*)*`. -/
inductive Derives : Part → List Token → Cmd → Prop where
  | line {ts : List Token} {c : Cmd} (k : Nat) : Derives .pipe ts c →
      Derives .line (ts ++ List.replicate k .amp) (backs k c)
  | list {ts us : List Token} {c d : Cmd} (k : Nat) : Derives .pipe ts c → Derives .line us d →
      Derives .line (ts ++ List.replicate k .amp ++ .semi :: us) (.list (backs k c) d)
  | exec {ts : List Token} {c : Cmd} : Derives .exec ts c → Derives .pipe ts c
  | pipe {ts us : List Token} {c d : Cmd} : Derives .exec ts c → Derives .pipe us d →
      Derives .pipe (ts ++ .bar :: us) (.pipe c d)
  | block {ts : List Token} {c : Cmd} (rs : List Redir) : Derives .line ts c →
      Derives .exec (.opens :: ts ++ .closes :: rs.flatMap Redir.tokens) (rs.foldl Cmd.wrap c)
  | simple (rs : List Redir) (groups : List Group) : groups.length < MAXARGS →
      Derives .exec (rs.flatMap Redir.tokens ++ groups.flatMap Group.tokens)
        ((rs ++ groups.flatMap (·.2)).foldl Cmd.wrap (.exec (groups.map (·.1))))

/-! ## Steps of the parser -/

section Steps

variable {s : Text} {ts : List Token} (n argc : Nat) (cmd : Cmd)

theorem announced_cons {toks : Text} {t : Token} : Announced toks (t :: ts) ↔ ∃ c ∈ toks, t.symbol = some c :=
  ⟨fun ⟨_, is, found⟩ => Option.some.inj is ▸ found, fun found => ⟨t, rfl, found⟩⟩

/-- Nothing follows, or a token that `toks` announces. -/
def Follows (toks : Text) (ts : List Token) : Prop := ts = [] ∨ Announced toks ts

theorem redirs_stop (none : ¬ Announced ['<', '>'] (tokens s)) : parseredirs (n + 1) cmd s = .ok (cmd, skip s) := by
  unfold parseredirs
  rw [peek_eq s (by decide)]
  exact if_neg (by simpa using none)

theorem redirs_more {op : Op} {middle : Text} (first : gettoken s = (some (.redir op), middle)) :
    parseredirs (n + 1) cmd s = match gettoken middle with
      | (some (.word file), next) => parseredirs n (cmd.wrap (op, file)) next
      | _ => .error (.panic "missing file for redirection") := by
  have more : Announced ['<', '>'] (tokens s) := by
    rw [tokens_some first, announced_cons]
    cases op <;> simp [Token.symbol]
  conv_lhs => unfold parseredirs
  simp only [peek_eq s (by decide : ['<', '>'] ⊆ symbols), more, gettoken_skip, first]
  rfl

theorem redirs_step {op : Op} {file : Text} (is : tokens s = .redir op :: .word file :: ts) :
    ∃ next, tokens next = ts ∧ parseredirs (n + 1) cmd s = parseredirs n (cmd.wrap (op, file)) next := by
  obtain ⟨middle, first, rest⟩ := gettoken_of_cons is
  obtain ⟨next, second, rest⟩ := gettoken_of_cons rest
  exact ⟨next, rest, by rw [redirs_more n cmd first, second]⟩

theorem args_stop (follows : Follows ['|', ')', '&', ';'] (tokens s)) :
    ∃ next, tokens next = tokens s ∧ parseargs (n + 1) argc cmd s = .ok (cmd, next) := by
  unfold parseargs
  simp only [peek_eq s (by decide : ['|', ')', '&', ';'] ⊆ symbols)]
  rcases follows with ends | stop
  · have none : ¬ Announced ['|', ')', '&', ';'] (tokens s) := by simp [ends, Announced]
    obtain ⟨next, gets, rest⟩ := gettoken_of_nil ends
    exact ⟨next, rest.trans ends.symm, by simp [none, gettoken_skip, gets]⟩
  · exact ⟨skip s, tokens_skip s, by simp [stop]⟩

theorem args_go {t : Token} {next : Text} (gets : gettoken s = (some t, next))
    (go : ¬ Announced ['|', ')', '&', ';'] (tokens s)) :
    parseargs (n + 1) argc cmd s = match t with
      | .word text => if MAXARGS ≤ argc + 1 then .error (.panic "too many args")
          else do
            let (ret, s) ← parseredirs n (cmd.addArg text) next
            parseargs n (argc + 1) ret s
      | _ => .error (.panic "syntax") := by
  conv_lhs => unfold parseargs
  simp only [peek_eq s (by decide : ['|', ')', '&', ';'] ⊆ symbols), go, gettoken_skip, gets]
  cases t <;> rfl

end Steps

/-! ## What is parsed derives from the grammar -/

/-- The result, if there is one, and no loop is cut short. -/
def Fine (result : Parses) (Post : Cmd → Text → Prop) : Prop :=
  match result with
  | .ok (c, s) => Post c s
  | .error failure => failure ≠ .fuel

section Sound

variable {Post Final : Cmd → Text → Prop}

theorem Fine.bind {result : Parses} {f : Cmd × Text → Parses} (fine : Fine result Post)
    (next : ∀ c s, Post c s → Fine (f (c, s)) Final) : Fine (result >>= f) Final := by
  cases result with
  | error failure => exact fine
  | ok parsed => exact next parsed.1 parsed.2 fine

theorem Fine.imp {result : Parses} (fine : Fine result Post)
    (imp : ∀ c s, Post c s → Final c s) : Fine result Final := by
  cases result with
  | error failure => exact fine
  | ok parsed => exact imp parsed.1 parsed.2 fine

theorem redir_of_announced {ts : List Token} (more : Announced ['<', '>'] ts) : ∃ op us, ts = .redir op :: us := by
  obtain ⟨t, is, c, member, symbol⟩ := more
  obtain ⟨us, rfl⟩ := List.head?_eq_some_iff.mp is
  cases t with
  | redir op => exact ⟨op, us, rfl⟩
  | word => cases symbol
  | _ => cases symbol; simp at member

variable {c : Char} {s : Text} {cmd : Cmd}

theorem symbol_inj {t t' : Token} (is : t.symbol = some c) (is' : t'.symbol = some c) (single : c ≠ '>') : t' = t := by
  have same : t'.symbol = t.symbol := is'.trans is.symm
  have some : t.symbol ≠ none ∧ t.symbol ≠ some '>' := by simp [is, single]
  rcases t with _ | _ | _ | _ | _ | (_ | _ | _) | _ <;>
    rcases t' with _ | _ | _ | _ | _ | (_ | _ | _) | _ <;> simp_all [Token.symbol]

theorem peek_none {toks : Text} (are : toks ⊆ symbols) (none : ¬ Announced toks (tokens s)) :
    peek s toks = (false, skip s) := by
  rw [peek_eq s are, decide_eq_false none]

theorem peek_found {t : Token} {ts : List Token} (is : tokens s = t :: ts)
    (symbol : t.symbol = some c) (isSymbol : c ∈ symbols) : ∃ next, tokens next = ts ∧
      peek s [c] = (true, skip s) ∧ gettoken (skip s) = (some t, next) := by
  obtain ⟨next, gets, rest⟩ := gettoken_of_cons is
  refine ⟨next, rest, ?_, (gettoken_skip s).trans gets⟩
  rw [peek_eq s (by simpa using isSymbol), decide_eq_true]
  exact is ▸ ⟨t, rfl, c, by simp, symbol⟩

theorem peek_one (t : Token) (s : Text) (symbol : t.symbol = some c) (isSymbol : c ∈ symbols) (single : c ≠ '>') :
    (∃ next, tokens s = t :: tokens next ∧ peek s [c] = (true, skip s) ∧
      gettoken (skip s) = (some t, next)) ∨ peek s [c] = (false, skip s) := by
  by_cases found : Announced [c] (tokens s)
  · obtain ⟨t', head, c', member, is⟩ := found
    obtain ⟨ts, split⟩ := List.head?_eq_some_iff.mp head
    cases List.mem_singleton.mp member
    rw [symbol_inj symbol is single] at split
    obtain ⟨next, rest, peeks, gets⟩ := peek_found split symbol isSymbol
    exact .inl ⟨next, rest ▸ split, peeks, gets⟩
  · exact .inr (peek_none (by simpa using isSymbol) found)

theorem redirs_fine (n : Nat) (enough : (tokens s).length < n) :
    Fine (parseredirs n cmd s) fun c next => ∃ rs : List Redir,
      tokens s = rs.flatMap Redir.tokens ++ tokens next ∧ c = rs.foldl Cmd.wrap cmd := by
  induction n generalizing cmd s with
  | zero => exact absurd enough (Nat.not_lt_zero _)
  | succ n ih =>
    by_cases more : Announced ['<', '>'] (tokens s)
    · obtain ⟨op, ts, is⟩ := redir_of_announced more
      obtain ⟨middle, first, rest⟩ := gettoken_of_cons is
      rw [redirs_more n cmd first]
      split
      · rename_i file next second
        rw [tokens_some second] at rest
        rw [is, ← rest] at enough
        refine (ih (by simp at enough; omega)).imp ?_
        rintro c final ⟨rs, split, rfl⟩
        refine ⟨(op, file) :: rs, ?_, rfl⟩
        rw [is, ← rest, split]
        rfl
      · nofun
    · rw [redirs_stop n cmd more]
      exact ⟨[], (tokens_skip s).symm, rfl⟩

def Cmd.grow (cmd : Cmd) (g : Group) : Cmd := g.2.foldl Cmd.wrap (cmd.addArg g.1)

theorem args_fine (n : Nat) {argc : Nat} (enough : (tokens s).length < n) (few : argc < MAXARGS) :
    Fine (parseargs n argc cmd s) fun c next => ∃ groups : List Group,
      tokens s = groups.flatMap Group.tokens ++ tokens next ∧ argc + groups.length < MAXARGS ∧
        c = groups.foldl Cmd.grow cmd := by
  induction n generalizing argc cmd s with
  | zero => exact absurd enough (Nat.not_lt_zero _)
  | succ n ih =>
    by_cases follows : Follows ['|', ')', '&', ';'] (tokens s)
    · obtain ⟨next, same, is⟩ := args_stop n argc cmd follows
      rw [is]
      exact ⟨[], same.symm, few, rfl⟩
    · unfold Follows at follows
      push Not at follows
      obtain ⟨t, ts, is⟩ := List.exists_cons_of_ne_nil follows.1
      obtain ⟨next, gets, rest⟩ := gettoken_of_cons is
      rw [args_go n argc cmd gets follows.2]
      cases t with
      | word text =>
        rw [is, List.length_cons, ← rest] at enough
        dsimp only
        split
        · nofun
        · refine (redirs_fine n (by omega)).bind ?_
          rintro ret after ⟨rs, split, rfl⟩
          have shorter := congrArg List.length split
          rw [List.length_append] at shorter
          dsimp only
          refine (ih (by omega) (by omega)).imp ?_
          rintro c final ⟨groups, more, bound, rfl⟩
          refine ⟨(text, rs) :: groups, ?_, by simp only [List.length_cons]; omega, rfl⟩
          rw [is, ← rest, split, more]
          simp [Group.tokens]
      | _ => nofun

theorem backs_fine (n : Nat) (enough : (tokens s).length < n) : Fine (parsebacks n cmd s) fun c next => ∃ k,
      tokens s = List.replicate k .amp ++ tokens next ∧ c = backs k cmd := by
  induction n generalizing cmd s with
  | zero => exact absurd enough (Nat.not_lt_zero _)
  | succ n ih =>
    unfold parsebacks
    rcases peek_one .amp s rfl (by decide) (by decide) with ⟨next, is, peeks, gets⟩ | peeks
    · simp only [peeks, gets, if_true]
      rw [is, List.length_cons] at enough
      refine (ih (by omega)).imp ?_
      rintro c final ⟨k, split, rfl⟩
      exact ⟨k + 1, by rw [is, split]; rfl, rfl⟩
    · simp only [peeks]
      exact ⟨0, (tokens_skip s).symm, rfl⟩

end Sound

theorem addArg_wraps (rs : List Redir) (cmd : Cmd) (text : Text) :
    (rs.foldl Cmd.wrap cmd).addArg text = rs.foldl Cmd.wrap (cmd.addArg text) := by
  induction rs generalizing cmd with
  | nil => rfl
  | cons r rs ih => exact ih (cmd.wrap r)

theorem grow_eq (groups : List Group) (rs : List Redir) (argv : List Text) :
    groups.foldl Cmd.grow (rs.foldl Cmd.wrap (.exec argv)) =
      (rs ++ groups.flatMap (·.2)).foldl Cmd.wrap (.exec (argv ++ groups.map (·.1))) := by
  induction groups generalizing rs argv with
  | nil => simp
  | cons g groups ih =>
    rw [List.foldl_cons, Cmd.grow, addArg_wraps, ← List.foldl_append]
    exact (ih (rs ++ g.2) (argv ++ [g.1])).trans (by simp)

def parse : Part → Nat → Text → Parses
  | .line => parseline
  | .pipe => parsepipe
  | .exec => parseexec

def Part.rank : Part → Nat
  | .line => 4
  | .pipe => 3
  | .exec => 2

theorem parse_fine (n : Nat) {part : Part} {s : Text} (enough : 3 * (tokens s).length + part.rank ≤ n) :
    Fine (parse part n s) fun c next => ∃ ts, tokens s = ts ++ tokens next ∧ Derives part ts c := by
  induction n generalizing part s with
  | zero => cases part <;> simp [Part.rank] at enough
  | succ n ih =>
    have line {s : Text} (enough : 3 * (tokens s).length + 4 ≤ n) := @ih .line s enough
    have pipe {s : Text} (enough : 3 * (tokens s).length + 3 ≤ n) := @ih .pipe s enough
    have exec {s : Text} (enough : 3 * (tokens s).length + 2 ≤ n) := @ih .exec s enough
    cases part with
    | line =>
      simp only [Part.rank] at enough
      refine (pipe (by omega)).bind ?_
      rintro c middle ⟨ts, first, derives⟩
      simp only [first, List.length_append] at enough
      refine (backs_fine n (by omega)).bind ?_
      rintro _ after ⟨k, second, rfl⟩
      simp only [second, List.length_append] at enough
      rcases peek_one .semi after rfl (by decide) (by decide) with ⟨next, is, peeks, gets⟩ | peeks
      · simp only [is, List.length_cons] at enough
        simp only [peeks, gets, if_true]
        refine (line (by omega)).bind ?_
        rintro d final ⟨vs, third, more⟩
        exact ⟨_, by rw [first, second, is, third]; simp, .list k derives more⟩
      · simp only [peeks]
        exact ⟨_, by rw [first, second]; simp [tokens_skip], .line k derives⟩
    | pipe =>
      simp only [Part.rank] at enough
      refine (exec (by omega)).bind ?_
      rintro c middle ⟨ts, first, derives⟩
      simp only [first, List.length_append] at enough
      dsimp only
      rcases peek_one .bar middle rfl (by decide) (by decide) with ⟨next, is, peeks, gets⟩ | peeks
      · simp only [is, List.length_cons] at enough
        simp only [peeks, gets, if_true]
        refine (pipe (by omega)).bind ?_
        rintro d final ⟨vs, second, more⟩
        exact ⟨_, by rw [first, is, second]; simp, .pipe derives more⟩
      · simp only [peeks]
        exact ⟨ts, by rw [first]; simp [tokens_skip], .exec derives⟩
    | exec =>
      simp only [Part.rank] at enough
      rw [parse, parseexec]
      rcases peek_one .opens s rfl (by decide) (by decide) with ⟨inside, is, peeks, gets⟩ | peeks
      · simp only [is, List.length_cons] at enough
        have again := peek_skip s ['(']
        simp only [peeks, if_true, parseblock, again, gets]
        refine (line (by omega)).bind ?_
        rintro c middle ⟨us, first, derives⟩
        simp only [first, List.length_append] at enough
        rcases peek_one .closes middle rfl (by decide) (by decide) with
          ⟨next, close, peeks, gets⟩ | peeks
        · simp only [close, List.length_cons] at enough
          simp only [peeks, gets]
          refine (redirs_fine n (by omega)).imp ?_
          rintro _ final ⟨rs, second, rfl⟩
          exact ⟨_, by rw [is, first, close, second]; simp, .block rs derives⟩
        · simp only [peeks]
          nofun
      · simp only [peeks]
        refine (redirs_fine n (by rw [tokens_skip]; omega)).bind ?_
        rintro _ middle ⟨rs, first, rfl⟩
        rw [tokens_skip] at first
        simp only [first, List.length_append] at enough
        refine (args_fine n (by dsimp only; omega) (by decide)).imp ?_
        rintro _ final ⟨groups, second, few, rfl⟩
        rw [grow_eq]
        exact ⟨_, by rw [first, second, List.append_assoc], .simple rs groups (by omega)⟩

/-! ## What derives from the grammar is parsed -/

section Complete

variable {s : Text} {us : List Token}

theorem redirs_run (rs : List Redir) {n : Nat} {cmd : Cmd}
    (is : tokens s = rs.flatMap Redir.tokens ++ us) (ends : ¬ Announced ['<', '>'] us) (enough : rs.length < n) :
    ∃ next, tokens next = us ∧ parseredirs n cmd s = .ok (rs.foldl Cmd.wrap cmd, next) := by
  obtain ⟨n, rfl⟩ := Nat.exists_eq_succ_of_ne_zero (Nat.ne_zero_of_lt enough)
  induction rs generalizing s cmd n with
  | nil => exact ⟨skip s, (tokens_skip s).trans is, redirs_stop n cmd (is ▸ ends)⟩
  | cons r rs ih =>
    obtain ⟨middle, rest, goes⟩ := redirs_step n cmd is
    obtain ⟨n, rfl⟩ := Nat.exists_eq_succ_of_ne_zero (Nat.ne_zero_of_lt (Nat.lt_of_succ_lt_succ enough))
    obtain ⟨next, left, runs⟩ := ih rest n (Nat.lt_of_succ_lt_succ enough)
    exact ⟨next, left, goes.trans runs⟩

theorem backs_run (k : Nat) {n : Nat} {cmd : Cmd} (is : tokens s = List.replicate k .amp ++ us)
    (ends : ¬ Announced ['&'] us) (enough : k < n) :
    ∃ next, tokens next = us ∧ parsebacks n cmd s = .ok (backs k cmd, next) := by
  obtain ⟨n, rfl⟩ := Nat.exists_eq_succ_of_ne_zero (Nat.ne_zero_of_lt enough)
  unfold parsebacks
  induction k generalizing s cmd n with
  | zero =>
    refine ⟨skip s, (tokens_skip s).trans is, ?_⟩
    simp [peek_none (by decide) (is ▸ ends : ¬ Announced ['&'] (tokens s)), backs]
  | succ k ih =>
    obtain ⟨middle, rest, peeks, gets⟩ := peek_found is rfl (by decide)
    obtain ⟨n, rfl⟩ := Nat.exists_eq_succ_of_ne_zero (Nat.ne_zero_of_lt (Nat.lt_of_succ_lt_succ enough))
    obtain ⟨next, left, runs⟩ := @ih middle (.back cmd) rest n (Nat.lt_of_succ_lt_succ enough)
    refine ⟨next, left, ?_⟩
    simp only [peeks, gets, if_true, parsebacks]
    exact runs

theorem Follows.not_announced {toks others : Text} (follows : Follows toks us)
    (apart : toks.all (· ∉ others)) : ¬ Announced others us := by
  rintro ⟨t, is, c, member, symbol⟩
  rcases follows with rfl | ⟨t', is', c', member', symbol'⟩
  · cases is
  · cases is.symm.trans is'
    cases symbol.symm.trans symbol'
    exact of_decide_eq_true (List.all_eq_true.mp apart c member') member

theorem groups_follow (groups : List Group) {toks others : Text} (follows : Follows toks us)
    (apart : toks.all (· ∉ others)) : ¬ Announced others (groups.flatMap Group.tokens ++ us) := by
  cases groups with
  | nil => exact follows.not_announced apart
  | cons g groups =>
    rintro ⟨t, is, c, _, symbol⟩
    cases is
    cases symbol

theorem length_redirs (rs : List Redir) : rs.length ≤ (rs.flatMap Redir.tokens).length := by
  induction rs with
  | nil => exact Nat.le_refl _
  | cons r rs ih =>
    rw [List.flatMap_cons, List.length_append, List.length_cons]
    exact Nat.add_comm 1 _ ▸ Nat.add_le_add (Nat.le_succ 1) ih

theorem args_run (groups : List Group) {n argc : Nat} {cmd : Cmd} (is : tokens s = groups.flatMap Group.tokens ++ us)
    (follows : Follows ['|', ')', '&', ';'] us) (few : argc + groups.length < MAXARGS)
    (enough : (groups.flatMap Group.tokens).length < n) :
    ∃ next, tokens next = us ∧ parseargs n argc cmd s = .ok (groups.foldl Cmd.grow cmd, next) := by
  induction groups generalizing s cmd n argc with
  | nil =>
    obtain ⟨n, rfl⟩ := Nat.exists_eq_succ_of_ne_zero (Nat.ne_zero_of_lt enough)
    obtain ⟨next, same, goes⟩ := args_stop n argc cmd (by rw [is]; exact follows)
    exact ⟨next, same.trans is, goes⟩
  | cons g groups ih =>
    obtain ⟨n, rfl⟩ := Nat.exists_eq_succ_of_ne_zero (Nat.ne_zero_of_lt enough)
    have go : ¬ Announced ['|', ')', '&', ';'] (tokens s) := by
      rw [is]
      rintro ⟨t, isFirst, c, _, symbol⟩
      cases isFirst
      cases symbol
    obtain ⟨middle, gets, rest⟩ := gettoken_of_cons is
    rw [List.flatMap_cons, List.length_append, Group.tokens, List.length_cons] at enough
    have length := length_redirs g.2
    rw [List.length_cons] at few
    obtain ⟨after, rest', redirs⟩ := @redirs_run middle _ g.2 n (cmd.addArg g.1)
      (rest.trans (List.append_assoc ..)) (groups_follow groups follows (by decide)) (by omega)
    obtain ⟨next, left, runs⟩ := @ih after n (argc + 1) (cmd.grow g) rest' (by omega) (by omega)
    refine ⟨next, left, ?_⟩
    rw [args_go n argc cmd gets go]
    dsimp only
    rw [if_neg (by omega), redirs]
    exact runs

end Complete

def Part.follow : Part → Text
  | .line => [')']
  | .pipe => ['&', ';', ')']
  | .exec => ['|', '&', ';', ')']

variable {toks : Text} {us : List Token}

theorem Follows.cons {t : Token} (c : Char) (is : t.symbol = some c) (member : c ∈ toks) :
    Follows toks (t :: us) := .inr ⟨t, rfl, c, member, is⟩

theorem Follows.mono {more : Text} (follows : Follows toks us) (subset : toks ⊆ more) : Follows more us :=
  follows.imp id fun ⟨t, is, c, member, symbol⟩ => ⟨t, is, c, subset member, symbol⟩

theorem follows_backs (k : Nat) (follows : Follows toks us) (subset : toks ⊆ Part.pipe.follow) :
    Follows Part.pipe.follow (List.replicate k .amp ++ us) := by
  cases k with
  | zero => exact follows.mono subset
  | succ k => exact .cons '&' rfl (by decide)

theorem parse_run {part : Part} {ts : List Token} {c : Cmd} (derives : Derives part ts c)
    {n : Nat} {s : Text} (is : tokens s = ts ++ us) (follows : Follows part.follow us)
    (enough : 3 * (tokens s).length + part.rank ≤ n) : ∃ next, tokens next = us ∧ parse part n s = .ok (c, next) := by
  obtain ⟨n, rfl⟩ : ∃ m, n = m + 1 := ⟨n - 1, by cases part <;> simp [Part.rank] at enough <;> omega⟩
  rw [is] at enough
  induction derives generalizing n s us with
  | @line ts c k derives ih =>
    simp only [Part.rank, List.length_append, List.length_replicate] at enough ih
    obtain ⟨n, rfl⟩ : ∃ m, n = m + 1 := ⟨n - 1, by omega⟩
    obtain ⟨middle, rest, runs⟩ := @ih _ s (is.trans (List.append_assoc ..))
      (follows_backs k follows (by decide)) n (by simp; omega)
    obtain ⟨next, left, loops⟩ := @backs_run middle us k (n + 1) c rest (follows.not_announced (by decide)) (by omega)
    have peeks : peek next [';'] = (false, skip next) :=
      peek_none (by decide) (left ▸ follows.not_announced (by decide))
    refine ⟨skip next, (tokens_skip next).trans left, ?_⟩
    simp only [parse] at runs
    rw [parse, parseline]
    simp only [runs, bind, Except.bind, loops, peeks]
    rfl
  | @list ts vs c d k derives more ih ih' =>
    simp only [Part.rank, List.length_append, List.length_replicate, List.length_cons] at enough ih ih'
    obtain ⟨n, rfl⟩ : ∃ m, n = m + 1 := ⟨n - 1, by omega⟩
    have after : Follows [';'] (.semi :: (vs ++ us)) := .cons ';' rfl (by decide)
    obtain ⟨middle, rest, runs⟩ := @ih (List.replicate k .amp ++ .semi :: (vs ++ us)) s
      (is.trans (by simp)) (follows_backs k after (by decide)) n (by simp; omega)
    obtain ⟨semi, left, loops⟩ := @backs_run middle _ k (n + 1) c rest (after.not_announced (by decide)) (by omega)
    obtain ⟨next, left', peeks, gets⟩ := peek_found left rfl (by decide)
    obtain ⟨final, ends, again⟩ := @ih' us next left' follows n (by omega)
    refine ⟨final, ends, ?_⟩
    simp only [parse] at runs again
    rw [parse, parseline]
    simp only [runs, bind, Except.bind, loops, peeks, gets, again, if_true]
    rfl
  | @exec ts c derives ih =>
    simp only [Part.rank] at enough ih
    obtain ⟨n, rfl⟩ : ∃ m, n = m + 1 := ⟨n - 1, by omega⟩
    obtain ⟨next, left, runs⟩ := @ih us s is (follows.mono (by decide)) n (by omega)
    have peeks : peek next ['|'] = (false, skip next) :=
      peek_none (by decide) (left ▸ follows.not_announced (by decide))
    refine ⟨skip next, (tokens_skip next).trans left, ?_⟩
    simp only [parse] at runs
    rw [parse, parsepipe]
    simp only [runs, bind, Except.bind, peeks]
    rfl
  | @pipe ts vs c d derives more ih ih' =>
    simp only [Part.rank, List.length_append, List.length_cons] at enough ih ih'
    obtain ⟨n, rfl⟩ : ∃ m, n = m + 1 := ⟨n - 1, by omega⟩
    have after : Follows Part.exec.follow (.bar :: (vs ++ us)) := .cons '|' rfl (by decide)
    obtain ⟨bar, left, runs⟩ := @ih _ s (is.trans (by simp)) after n (by simp; omega)
    obtain ⟨next, left', peeks, gets⟩ := peek_found left rfl (by decide)
    obtain ⟨final, ends, again⟩ := @ih' us next left' follows n (by omega)
    refine ⟨final, ends, ?_⟩
    simp only [parse] at runs again
    rw [parse, parsepipe]
    simp only [runs, bind, Except.bind, peeks, gets, again, if_true]
    rfl
  | @block ts c rs derives ih =>
    have wraps := length_redirs rs
    replace is : tokens s = .opens :: (ts ++ .closes :: (rs.flatMap Redir.tokens ++ us)) :=
      is.trans (by simp)
    simp only [Part.rank, List.length_append, List.length_cons] at enough ih
    obtain ⟨n, rfl⟩ : ∃ m, n = m + 1 := ⟨n - 1, by omega⟩
    obtain ⟨inside, rest, opens, first⟩ := peek_found is rfl (by decide)
    have after : Follows Part.line.follow (.closes :: (rs.flatMap Redir.tokens ++ us)) :=
      .cons ')' rfl (by decide)
    obtain ⟨middle, left, runs⟩ := @ih _ inside rest after n
      (by simp only [List.length_append, List.length_cons]; omega)
    obtain ⟨next, left', closes, last⟩ := peek_found left rfl (by decide)
    obtain ⟨final, ends, loops⟩ := @redirs_run next us rs (n + 1) c left' (follows.not_announced (by decide)) (by omega)
    have again := peek_skip s ['(']
    refine ⟨final, ends, ?_⟩
    simp only [parse] at runs
    simp only [parse, parseexec, parseblock, runs, bind, Except.bind, opens, first, closes, last, loops, again, if_true]
    rfl
  | simple rs groups few =>
    have wraps := length_redirs rs
    simp only [Part.rank, List.length_append] at enough
    rw [List.append_assoc] at is
    have none : ¬ Announced ['('] (tokens s) := by
      rw [is]
      cases rs with
      | nil => exact groups_follow groups follows (by decide)
      | cons r rs =>
        rintro ⟨t, isFirst, c, member, symbol⟩
        cases isFirst
        cases List.mem_singleton.mp member
        revert symbol
        rcases r with ⟨_ | _ | _, _⟩ <;> simp [Token.symbol]
    obtain ⟨middle, rest, redirs⟩ := @redirs_run (skip s) _ rs n (.exec []) ((tokens_skip s).trans is)
      (groups_follow groups follows (by decide)) (by omega)
    obtain ⟨next, left, runs⟩ := @args_run middle us groups n 0 (rs.foldl Cmd.wrap (.exec [])) rest
      (follows.mono (by decide)) (by omega) (by omega)
    refine ⟨next, left, ?_⟩
    rw [grow_eq] at runs
    simp only [parse, parseexec, peek_none (by decide : ['('] ⊆ symbols) none, redirs, bind, Except.bind]
    exact runs

/-- Whatever the line: the parser is never cut short, and it returns a command
exactly when the tokens of the line derive it. -/
theorem parsecmd_accepts_grammar (s : Text) : parsecmd s ≠ .error .fuel ∧
    ∀ c, parsecmd s = .ok c ↔ Derives .line (tokens s) c := by
  have enough : 3 * (tokens s).length + Part.line.rank ≤ 3 * s.length + 4 := by
    have bound := tokens_length s
    simp only [Part.rank]
    omega
  have fine := parse_fine _ enough
  have is : parsecmd s = parseline (3 * s.length + 4) s >>= fun parsed =>
      if skip parsed.2 ≠ [] then .error (.panic "syntax") else pure parsed.1 := by
    unfold parsecmd
    simp only [peek_eq _ (List.nil_subset symbols)]
  simp only [parse] at fine
  rw [is]
  refine ⟨?_, fun c => ⟨fun returns => ?_, fun derives => ?_⟩⟩
  · cases result : parseline (3 * s.length + 4) s with
    | error failure =>
      rw [result] at fine
      exact fun same => fine (Except.error.inj same)
    | ok parsed =>
      simp only [bind, Except.bind]
      split <;> nofun
  · cases result : parseline (3 * s.length + 4) s with
    | error failure =>
      rw [result] at returns
      cases returns
    | ok parsed =>
      rw [result] at fine returns
      obtain ⟨ts, split, derives⟩ := fine
      simp only [bind, Except.bind] at returns
      split at returns
      · cases returns
      · rename_i ends
        cases returns
        rw [tokens_none (gettoken_nil (not_not.mp ends)), List.append_nil] at split
        exact split ▸ derives
  · obtain ⟨next, ends, runs⟩ := parse_run derives (List.append_nil _).symm (.inl rfl) enough
    simp only [parse] at runs
    rw [runs]
    refine if_neg (not_not.mpr ?_)
    cases starts : skip next with
    | nil => rfl
    | cons c rest =>
      obtain ⟨t, final, gets, _⟩ := gettoken_cons starts
      cases (tokens_some gets).symm.trans ends

end Xv6Dedup.Shell
