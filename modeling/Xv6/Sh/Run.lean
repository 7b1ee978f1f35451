import Xv6.Sh.Code
import Xv6.User.Machine

/-!
# `runcmd`

`runcmd` of `user/sh.c` as a program of user processes. It never returns, so a recursive call is the
end of a block, and its label is the node that is evaluated next, with the way that leads there.
-/

namespace Xv6.Sh

open User

abbrev Word := List UInt8

/-- The step from a node of a command to one below it. -/
inductive Frame where
  | redir (fd : Nat) (file : Word) (mode : Nat)
  | pipeLeft
  | pipeRight
  | listLeft
  | listRight
  | back
  deriving DecidableEq, Repr

/-- A node that is evaluated. -/
structure Node where
  frame : Frame
  cmd : Cmd Word
  deriving DecidableEq

/-- The nodes directly below one. -/
inductive Child : Cmd Word → Frame → Cmd Word → Prop
  | redir {c file mode fd} : Child (.redir c file mode fd) (.redir fd file mode) c
  | pipeLeft {l r} : Child (.pipe l r) .pipeLeft l
  | pipeRight {l r} : Child (.pipe l r) .pipeRight r
  | listLeft {l r} : Child (.list l r) .listLeft l
  | listRight {l r} : Child (.list l r) .listRight r
  | back {c} : Child (.back c) .back c

def str (s : String) : Word := s.toUTF8.data.toList

/-- `fprintf(2, "%s\n", s); exit(1)`. -/
def panic {α : Type} (s : String) : User.Code α := do
  puts 2 (str s ++ str "\n")
  exit 1

/-- Fork but panics on failure. -/
def fork1 : User.Code Int := do
  let pid ← fork
  if pid = -1 then panic "fork" else pure pid

def runcmd : Cmd Word → User.Code Node
  | .exec [] => exit 1
  | .exec (path :: args) => do
    let _ ← exec (path :: args)
    puts 2 (str "exec " ++ path ++ str " failed\n")
    exit 0
  | .redir cmd file mode fd => do
    let _ ← close fd
    let r ← «open» file mode
    if r < 0 then
      puts 2 (str "open " ++ file ++ str " failed\n")
      exit 1
    else pure ⟨.redir fd file mode, cmd⟩
  | .list left right => do
    let pid ← fork1
    if pid = 0 then pure ⟨.listLeft, left⟩
    else
      let _ ← wait
      pure ⟨.listRight, right⟩
  | .pipe left right => do
    let p ← pipe
    match p with
    | none => panic "pipe"
    | some (p₀, p₁) =>
      let pid ← fork1
      if pid = 0 then
        let _ ← close 1
        let _ ← dup p₁
        let _ ← close p₀
        let _ ← close p₁
        pure ⟨.pipeLeft, left⟩
      else
        let pid ← fork1
        if pid = 0 then
          let _ ← close 0
          let _ ← dup p₀
          let _ ← close p₀
          let _ ← close p₁
          pure ⟨.pipeRight, right⟩
        else
          let _ ← close p₀
          let _ ← close p₁
          let _ ← wait
          let _ ← wait
          exit 0
  | .back cmd => do
    let pid ← fork1
    if pid = 0 then pure ⟨.back, cmd⟩ else exit 0

end Xv6.Sh
