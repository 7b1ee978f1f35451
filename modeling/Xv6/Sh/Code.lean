import Xv6.Dir.Sysfile

/-!
# The parser of the shell

`user/sh.c` from `gettoken` to `nulterminate`. A pointer into the line is its offset; the tree
points into the line, which `nulterminate` then cuts into strings. The four functions that call each
other take a bound on the depth of the calls.
-/

namespace Xv6.Sh

open Function

open Dir (O_RDONLY O_WRONLY O_CREATE O_TRUNC)

def MAXARGS : Nat := 10

/-- Parsed commands, with words of type `α`. The arrays of `struct execcmd` end at the first null
pointer. -/
inductive Cmd (α : Type) where
  | exec (argv : List α)
  | redir (cmd : Cmd α) (file : α) (mode fd : Nat)
  | pipe (left right : Cmd α)
  | list (left right : Cmd α)
  | back (cmd : Cmd α)
  deriving DecidableEq, Repr

/-- Where a word starts and where it ends: `argv[i]` and `eargv[i]`, or `file` and `efile`. -/
structure Span where
  q : Nat
  eq : Nat
  deriving DecidableEq, Repr

/-- The ways in which `parsecmd` does not return; `deep` is the bound of the model. -/
inductive Halt where
  | missingFile
  | parseblock
  | missingParen
  | badToken
  | tooManyArgs
  | leftovers
  | deep
  deriving DecidableEq, Repr

/-! ## Tokens -/

abbrev ch (c : Char) : UInt8 := c.toUInt8

def whitespace : List UInt8 := [ch ' ', ch '\t', ch '\r', ch '\n', 11]
def symbols : List UInt8 := [ch '<', ch '|', ch '>', ch '&', ch ';', ch '(', ch ')']

/-- The line from offset 0 to `es`, where its NUL is. -/
structure Text where
  byte : Nat → UInt8
  es : Nat

variable (b : Text)

/-- `while(s < es && strchr(whitespace, *s)) s++`, with `es - s` bytes to go. -/
def skip : (n s : Nat) → Nat
  | 0, s => s
  | n + 1, s => if b.byte s ∈ whitespace then skip n (s + 1) else s

/-- The same for a word. -/
def skipWord : (n s : Nat) → Nat
  | 0, s => s
  | n + 1, s => if b.byte s ∉ whitespace ∧ b.byte s ∉ symbols then skipWord n (s + 1) else s

/-- What `gettoken` returns, in `*q` and `*eq`, and in `*ps`. -/
structure Token where
  ret : UInt8
  word : Span
  next : Nat

/-- `switch(*s)` of `gettoken`: what it returns, and the pointer after the token. -/
def lexeme (s : Nat) : UInt8 × Nat :=
  let c := b.byte s
  if c = 0 then (0, s)
  else if c ∈ [ch '|', ch '(', ch ')', ch ';', ch '&', ch '<'] then (c, s + 1)
  else if c = ch '>' then
    if b.byte (s + 1) = ch '>' then (ch '+', s + 2) else (c, s + 1)
  else (ch 'a', skipWord b (b.es - s) s)

def gettoken (s : Nat) : Token :=
  let q := skip b (b.es - s) s
  let (ret, eq) := lexeme b q
  ⟨ret, ⟨q, eq⟩, skip b (b.es - eq) eq⟩

/-- Whether the next byte is one of `toks`, and the pointer past the blanks. -/
def peek (s : Nat) (toks : List UInt8) : Bool × Nat :=
  let s := skip b (b.es - s) s
  (b.byte s ≠ 0 ∧ b.byte s ∈ toks, s)

/-! ## Commands -/

/-- `switch(tok)` of `parseredirs`. -/
def addRedir (tok : UInt8) (cmd : Cmd Span) (file : Span) : Cmd Span :=
  if tok = ch '<' then .redir cmd file O_RDONLY 0
  else if tok = ch '>' then .redir cmd file (O_WRONLY ||| O_CREATE ||| O_TRUNC) 1
  else if tok = ch '+' then .redir cmd file (O_WRONLY ||| O_CREATE) 1
  else cmd

/-- The loop of `parseredirs`, at most `n` times. -/
def parseredirs : (n : Nat) → (cmd : Cmd Span) → (s : Nat) → Except Halt (Cmd Span × Nat)
  | 0, _, _ => .error .deep
  | n + 1, cmd, s =>
    let (more, s) := peek b s [ch '<', ch '>']
    if more then
      let t := gettoken b s
      let f := gettoken b t.next
      if f.ret ≠ ch 'a' then .error .missingFile
      else parseredirs n (addRedir t.ret cmd f.word) f.next
    else .ok (cmd, s)

/-- `cmd->argv[argc] = q; cmd->eargv[argc] = eq`, where `cmd` is the EXEC node inside of `ret`. -/
def Cmd.push {α : Type} (w : α) : Cmd α → Cmd α
  | exec argv => .exec (argv ++ [w])
  | redir cmd file mode fd => .redir (cmd.push w) file mode fd
  | ret => ret

/-- The loop of `parseexec`, at most `n` times. -/
def parseargs : (n argc : Nat) → (ret : Cmd Span) → (s : Nat) → Except Halt (Cmd Span × Nat)
  | 0, _, _, _ => .error .deep
  | n + 1, argc, ret, s => do
    let (stop, s) := peek b s [ch '|', ch ')', ch '&', ch ';']
    if stop then .ok (ret, s)
    else
      let t := gettoken b s
      if t.ret = 0 then .ok (ret, t.next)
      else if t.ret ≠ ch 'a' then .error .badToken
      else if MAXARGS ≤ argc + 1 then .error .tooManyArgs
      else
        let (ret, s) ← parseredirs b (b.es + 1) (ret.push t.word) t.next
        parseargs n (argc + 1) ret s

/-- `while(peek(ps, es, "&"))` of `parseline`, at most `n` times. -/
def parseback : (n : Nat) → (cmd : Cmd Span) → (s : Nat) → Except Halt (Cmd Span × Nat)
  | 0, _, _ => .error .deep
  | n + 1, cmd, s =>
    let (more, s) := peek b s [ch '&']
    if more then parseback n (.back cmd) (gettoken b s).next else .ok (cmd, s)

mutual

def parseline : (n s : Nat) → Except Halt (Cmd Span × Nat)
  | 0, _ => .error .deep
  | n + 1, s => do
    let (cmd, s) ← parsepipe n s
    let (cmd, s) ← parseback b (b.es + 1) cmd s
    let (more, s) := peek b s [ch ';']
    if more then
      let (right, s) ← parseline n (gettoken b s).next
      .ok (.list cmd right, s)
    else .ok (cmd, s)

def parsepipe : (n s : Nat) → Except Halt (Cmd Span × Nat)
  | 0, _ => .error .deep
  | n + 1, s => do
    let (cmd, s) ← parseexec n s
    let (more, s) := peek b s [ch '|']
    if more then
      let (right, s) ← parsepipe n (gettoken b s).next
      .ok (.pipe cmd right, s)
    else .ok (cmd, s)

def parseblock : (n s : Nat) → Except Halt (Cmd Span × Nat)
  | 0, _ => .error .deep
  | n + 1, s => do
    let (opens, s) := peek b s [ch '(']
    if !opens then .error .parseblock
    else
      let (cmd, s) ← parseline n (gettoken b s).next
      let (closes, s) := peek b s [ch ')']
      if !closes then .error .missingParen
      else parseredirs b (b.es + 1) cmd (gettoken b s).next

def parseexec : (n s : Nat) → Except Halt (Cmd Span × Nat)
  | 0, _ => .error .deep
  | n + 1, s => do
    let (block, s) := peek b s [ch '(']
    if block then parseblock n s
    else
      let (ret, s) ← parseredirs b (b.es + 1) (.exec []) s
      parseargs b (b.es + 1) 0 ret s

end

def nulterminate : (cmd : Cmd Span) → (m : Nat → UInt8) → Nat → UInt8
  | .exec argv, m => argv.foldl (fun m w => update m w.eq 0) m
  | .redir cmd file _ _, m => update (nulterminate cmd m) file.eq 0
  | .pipe left right, m | .list left right, m => nulterminate right (nulterminate left m)
  | .back cmd, m => nulterminate cmd m

def strlen (s : List UInt8) : Nat := (s.takeWhile (· ≠ 0)).length

/-- The line of a string, which ends at its first NUL. -/
def Text.ofString (s : List UInt8) : Text := ⟨fun i => s.getD i 0, strlen s⟩

/-- The tree, and the line after `nulterminate`. -/
def parsecmd (s : List UInt8) : Except Halt (Cmd Span × (Nat → UInt8)) := do
  let b := Text.ofString s
  let (cmd, s) ← parseline b (4 * b.es + 4) 0
  let (_, s) := peek b s []
  if s ≠ b.es then .error .leftovers
  else .ok (cmd, nulterminate cmd b.byte)

end Xv6.Sh
