import Xv6.Sh.Code

/-!
# The language of the shell

The tokens of a line and the grammar over them:

    line  := pipe '&'* [';' line]
    pipe  := exec ['|' pipe]
    exec  := '(' line ')' redir* or redir* (word redir*)*
    redir := ('<' or '>' or '>>') word

A nonterminal relates the tokens before it, the command it stands for and the tokens after it.
-/

namespace Xv6.Sh

open List

open Dir (O_RDONLY O_WRONLY O_CREATE O_TRUNC)

/-! ## Tokens -/

/-- `<`, `>` and `>>`. -/
inductive Arrow where
  | input
  | output
  | append
  deriving DecidableEq, Repr

inductive Tok where
  | word (w : List UInt8)
  | arrow (a : Arrow)
  | bar
  | amp
  | semi
  | lpar
  | rpar
  deriving DecidableEq, Repr

/-- The bytes of words. -/
def inWord (c : UInt8) : Bool := c ∉ whitespace ∧ c ∉ symbols

/-- The symbols of one byte that need no look at the next. -/
def symbol (c : UInt8) : Option Tok :=
  if c = ch '<' then some (.arrow .input)
  else if c = ch '|' then some .bar
  else if c = ch '&' then some .amp
  else if c = ch ';' then some .semi
  else if c = ch '(' then some .lpar
  else if c = ch ')' then some .rpar
  else none

/-- The tokens of a line; a word is a maximal run of bytes that are neither blanks nor symbols. -/
def tokens : List UInt8 → List Tok
  | [] => []
  | c :: s =>
    if c ∈ whitespace then tokens s
    else if c = ch '>' then
      if s.head? = some (ch '>') then .arrow .append :: tokens s.tail
        else .arrow .output :: tokens s
    else match symbol c with
      | some t => t :: tokens s
      | none => .word (c :: s.takeWhile inWord) :: tokens (s.dropWhile inWord)
termination_by s => s.length
decreasing_by
  all_goals simp only [length_cons, length_tail]
  all_goals have := (dropWhile_suffix (l := s) inWord).length_le
  all_goals omega

/-! ## The grammar -/

/-- A redirection in a command line. -/
structure Redir where
  arrow : Arrow
  file : List UInt8

def Arrow.mode : Arrow → Nat
  | input => O_RDONLY
  | output => O_WRONLY ||| O_CREATE ||| O_TRUNC
  | append => O_WRONLY ||| O_CREATE

def Arrow.fd : Arrow → Nat
  | input => 0
  | output | append => 1

/-- The first redirection is the innermost. -/
def Cmd.wrap (cmd : Cmd (List UInt8)) (rs : List Redir) : Cmd (List UInt8) :=
  rs.foldl (fun c r => .redir c r.file r.arrow.mode r.arrow.fd) cmd

/-- `redir*` -/
inductive Redirs : List Tok → List Redir → List Tok → Prop
  | nil {ts} : Redirs ts [] ts
  | cons {a w ts rs rest} : Redirs ts rs rest → Redirs (.arrow a :: .word w :: ts)
      (⟨a, w⟩ :: rs) rest

/-- `(word redir*)*` -/
inductive Args : List Tok → List (List UInt8) → List Redir → List Tok → Prop
  | nil {ts} : Args ts [] [] ts
  | cons {w ts rs ts' ws rs' rest} : Redirs ts rs ts' → Args ts' ws rs' rest →
    Args (.word w :: ts) (w :: ws) (rs ++ rs') rest

mutual

inductive Line : List Tok → Cmd (List UInt8) → List Tok → Prop
  | last {ts c rest} : Job ts c rest → Line ts c rest
  | list {ts c ts' c' rest} : Job ts c (.semi :: ts') → Line ts' c' rest → Line ts (.list c c') rest

/-- `pipe '&'*` -/
inductive Job : List Tok → Cmd (List UInt8) → List Tok → Prop
  | pipe {ts c rest} : Pipe ts c rest → Job ts c rest
  | back {ts c rest} : Job ts c (.amp :: rest) → Job ts (.back c) rest

inductive Pipe : List Tok → Cmd (List UInt8) → List Tok → Prop
  | last {ts c rest} : Exec ts c rest → Pipe ts c rest
  | pipe {ts c ts' c' rest} : Exec ts c (.bar :: ts') → Pipe ts' c' rest → Pipe ts (.pipe c c') rest

inductive Exec : List Tok → Cmd (List UInt8) → List Tok → Prop
  | block {ts c ts' rs rest} : Line ts c (.rpar :: ts') → Redirs ts' rs rest → Exec (.lpar :: ts)
      (c.wrap rs) rest
  | simple {ts rs ts' ws rs' rest} : Redirs ts rs ts' → Args ts' ws rs' rest →
    Exec ts ((Cmd.exec ws).wrap (rs ++ rs')) rest

end

/-- At most `MAXARGS - 1` words in every simple command. -/
def Cmd.Fits {α : Type} : Cmd α → Prop
  | exec argv => argv.length ≤ MAXARGS - 1
  | redir cmd _ _ _ => cmd.Fits
  | pipe left right | list left right => left.Fits ∧ right.Fits
  | back cmd => cmd.Fits

/-- A command as `runcmd` finds it: its words are the strings at the pointers. -/
def Cmd.map {α β : Type} (f : α → β) : Cmd α → Cmd β
  | exec argv => .exec (argv.map f)
  | redir cmd file mode fd => .redir (cmd.map f) (f file) mode fd
  | pipe left right => .pipe (left.map f) (right.map f)
  | list left right => .list (left.map f) (right.map f)
  | back cmd => .back (cmd.map f)

end Xv6.Sh
