import Xv6.Dir.Sysfile
import Xv6.Lib.Local
import Mathlib.Algebra.Order.Sub.Basic

/-!
# What a process knows about the inodes

A process that runs a file system call knows the inodes that it has locked and the references to
inodes, files and pipes that it holds. The rules say how the operations change this knowledge, and
what has to be known before: which inodes may be locked and changed, and which references may be
given up.
-/

namespace Xv6.Dir

open Lib Function Finset

/-- A pointer to an entry of the inode table, with the number of its inode. -/
abbrev Ptr := IId × Nat

/-- An operation on an inode that a process is in the middle of: `ilock` before it has read the
inode, or the last part of `iput`, before the inode is marked as free, before it is invalidated,
before the lock is released and before the reference is given up. A process that has exited does
nothing any more. -/
inductive Mid where
  | idle
  | loading (q : Ptr)
  | doomed (q : Ptr)
  | dead (q : Ptr)
  | void (q : Ptr)
  | gone (q : Ptr)
  | exited

/-- A process that is being made. -/
structure Kid where
  ofile : Fd → Option FId
  cwd : Option Ptr

structure Loc where
  /-- The locked inodes, as they are in memory and on disk. -/
  held : Nat → Option (Node × Node)
  refs : Ptr → Nat
  mid : Mid
  busy : Bool
  cwd : Option Ptr
  ofile : Fd → Option FId
  files : FId → Nat
  /-- Files that have just been allocated. -/
  fresh : Set FId
  /-- A file of the process with its inode, which it may lock. -/
  via : Option (FId × Ptr)
  /-- A file of the process with its pipe. -/
  viaPipe : Option (FId × Nat)
  /-- Open ends of pipes that belong to no file yet or no longer, and whether they are write ends.
  -/
  ends : Nat × Bool → Nat
  /-- Pipes that are about to be freed. -/
  corpses : Nat → Nat
  kid : Option Kid

/-- The references of a current directory. -/
def cwdRefs (c : Option Ptr) : Ptr → Nat := fun q => if c = some q then 1 else 0

/-- The references of a descriptor table. -/
def fdFiles (o : Fd → Option FId) : FId → Nat := fun f => (univ.filter fun fd => o fd = some f).card

@[simp] theorem cwdRefs_none : cwdRefs none = 0 := rfl

@[simp] theorem cwdRefs_some (q : Ptr) : cwdRefs (some q) = Pi.single q 1 := by
  funext r
  simp only [cwdRefs, Option.some.injEq, Pi.single_apply, eq_comm]

@[simp] theorem fdFiles_none : fdFiles (fun _ => none) = 0 := by
  funext f
  simp [fdFiles]

section

variable {o : Fd → Option FId} {fd : Fd} {f : FId}

theorem fdFiles_clear (h : o fd = some f) :
    fdFiles o = fdFiles (Function.update o fd none) + Pi.single f 1 := by
  funext g
  have : (univ.filter fun d => Function.update o fd none d = some g) =
      (univ.filter fun d => o d = some g).erase fd := by
    ext d
    by_cases hd : d = fd
    · simp [hd]
    · simp [hd]
  by_cases hg : g = f
  · subst hg
    have := card_erase_add_one (s := univ.filter fun d => o d = some g) (a := fd) (by simpa)
    simp_all [fdFiles]
  · have hn : fd ∉ univ.filter fun d => o d = some g := by simp [h, Ne.symm hg]
    simp only [fdFiles, this, erase_eq_of_notMem hn, Pi.add_apply, Pi.single_eq_of_ne hg, add_zero]

theorem fdFiles_set (h : o fd = none) :
    fdFiles (Function.update o fd (some f)) = fdFiles o + Pi.single f 1 := by
  rw [fdFiles_clear (update_self fd (some f) o), update_idem, ← h,
    update_eq_self]

theorem fdFiles_pos (h : o fd = some f) : 0 < fdFiles o f := by simp [fdFiles_clear h]

end

namespace Loc

variable (l : Loc) (q : Ptr) (n : Nat)

def Uses : Prop := 0 < l.refs q ∨ ∃ f, l.via = some (f, q)

def Unlocked : Prop := ∀ n, l.held n = none

def hold (x : Node) : Loc := { l with held := Function.update l.held n (some (x, x)) }

def release : Loc := { l with held := Function.update l.held n none }

def take : Loc := { l with refs := l.refs + Pi.single q 1 }

def drop : Loc := { l with refs := l.refs - Pi.single q 1 }

/-- A file has been allocated. -/
def newFile (f : FId) : Loc :=
  { l with files := l.files + Pi.single f 1, fresh := insert f l.fresh }

/-- A reference to a file is given up. -/
def closeFile (f : FId) : Loc :=
  { l with files := l.files - Pi.single f 1, fresh := l.fresh \ {f}, via := none, viaPipe := none }

/-- The fields of a file of the process have been read. -/
def look (f : FId) (x : File) : Loc :=
  { l with
    via := if x.type = .inode ∨ x.type = .device then some (f, (x.ip, n)) else none
    viaPipe := if x.type = .pipe then some (f, x.pipe) else none }

def setFd (fd : Fd) (f : Option FId) : Loc := { l with ofile := Function.update l.ofile fd f }

def setBusy (b : Bool) : Loc := { l with busy := b }

/-- No call is in progress. -/
structure Idle : Prop where
  unlocked : l.Unlocked
  refs : l.refs = cwdRefs l.cwd
  mid : l.mid = .idle ∨ l.mid = .exited ∧ l.cwd = none ∧ l.ofile = fun _ => none
  busy : l.busy = false
  files : l.files = fdFiles l.ofile
  fresh : l.fresh = ∅
  ends : l.ends = 0
  corpses : l.corpses = 0
  kid : l.kid = none

end Loc

/-- What is known after an entry has been written to slot `k`, or could not be written. -/
def Wrote (l : Loc) (x : Node) (k : Nat) (Q : Loc → Prop) (r : Int) (l' : Loc) : Prop :=
  (r = DESIZE → Q l') ∧
    (r ≠ DESIZE → l = l' ∧ (DESIZE * k ≤ x.data.length → MAXFILE * BSIZE < DESIZE * k + DESIZE))

/-- The panics that say that a reference or a lock has been lost. -/
def lostPanics : List Panic := [.ilock, .iunlock, .filedup, .fileclose]

/-- The panics that say that a name could not be entered in a directory. -/
def entryPanics : List Panic := [.dirlink, .createDirlink]

inductive Rule : Protocol iface Loc
  | beginOp {l : Loc} (busy : l.busy = false) (unlocked : l.Unlocked) (mid : l.mid = .idle) :
    Rule l .beginOp fun _ l' => l' = l.setBusy true
  | endOp {l : Loc} (live : l.mid ≠ .exited) :
    Rule l .endOp fun _ l' => l' = l.setBusy false
  | commit {l : Loc} (live : l.mid ≠ .exited) : Rule l .commit fun _ l' => l = l'
  | iget {l : Loc} {n : Nat} (mid : l.mid = .idle) :
    Rule l (.iget n) fun i l' => (∀ j, l.Uses (j, n) → j = i) ∧ l' = l.take (i, n)
  | idup {l : Loc} {i : IId} {n : Nat} (mid : l.mid = .idle) (refs : 0 < l.refs (i, n)) :
    Rule l (.idup i) fun _ l' => l' = l.take (i, n)
  | acquire {l : Loc} {i : IId} {n : Nat} (mid : l.mid = .idle) (uses : l.Uses (i, n)) :
    Rule l (.acquire i) fun _ l' => l.held n = none ∧ l' = { l with mid := .loading (i, n) }
  | load {l : Loc} {i : IId} {n : Nat} (mid : l.mid = .loading (i, n)) :
    Rule l (.load i) fun _ l' => ∃ x, x.type ≠ .free ∧ l' = { l.hold n x with mid := .idle }
  | iunlock {l : Loc} {i : IId} {n : Nat} {x : Node} (mid : l.mid = .idle) (uses : l.Uses (i, n))
      (held : l.held n = some (x, x)) :
    Rule l (.iunlock i) fun _ l' => l' = l.release n
  | inum {l : Loc} {i : IId} {n : Nat} (live : l.mid ≠ .exited) (uses : l.Uses (i, n)) :
    Rule l (.inum i) fun r l' => n = r ∧ l = l'
  | inode {l : Loc} {i : IId} {n : Nat} {x y : Node} (live : l.mid ≠ .exited) (uses : l.Uses (i, n))
      (held : l.held n = some (x, y)) :
    Rule l (.inode i) fun r l' => x = r ∧ l = l'
  | readi {l : Loc} {i : IId} {n off k : Nat} {x y : Node} (live : l.mid ≠ .exited)
      (uses : l.Uses (i, n)) (held : l.held n = some (x, y)) :
    Rule l (.readi i off k) fun r l' => l = l' ∧
      r = if x.data.length < off ∨ (off + k) % 2 ^ 32 < off then [] else slice x.data off k
  | setInode {l : Loc} {i : IId} {n : Nat} {x y z : Node} (live : l.mid ≠ .exited)
      (uses : l.Uses (i, n)) (held : l.held n = some (x, y)) :
    Rule l (.setInode i z) fun _ l' =>
      l' = { l with held := Function.update l.held n (some (z, y)) }
  | iupdate {l : Loc} {i : IId} {n : Nat} {x y : Node} (mid : l.mid = .idle) (uses : l.Uses (i, n))
      (held : l.held n = some (x, y)) (type : x.type = y.type) :
    Rule l (.iupdate i) fun _ l' => l' = l.hold n x
  -- the inode is marked as free
  | iupdateFree {l : Loc} {i : IId} {n : Nat} {x y : Node} (mid : l.mid = .doomed (i, n))
      (held : l.held n = some (x, y)) (type : x.type = .free) :
    Rule l (.iupdate i) fun _ l' => l' = { l.release n with mid := .dead (i, n) }
  | write {l : Loc} {i : IId} {n off k : Nat} {x : Node} {bs : List UInt8} (mid : l.mid = .idle)
      (uses : l.Uses (i, n)) (held : l.held n = some (x, x)) :
    Rule l (.writei i off k bs) fun _ l' => ∃ addrs data, l' = l.hold n { x with addrs, data }
  | writeEntry {l : Loc} {i : IId} {d k : Nat} {x : Node} {de : Dirent} (mid : l.mid = .idle)
      (uses : l.Uses (i, d)) (held : l.held d = some (x, x)) (length : de.bytes.length = DESIZE) :
    Rule l (.writei i (DESIZE * k) DESIZE de.bytes) <| Wrote l x k fun l' =>
      ∃ a, l' = l.hold d (x.writeEntry a k de)
  | itrunc {l : Loc} {i : IId} {n : Nat} {x : Node} (mid : l.mid = .idle ∨ l.mid = .doomed (i, n))
      (uses : l.Uses (i, n)) (held : l.held n = some (x, x)) :
    Rule l (.itrunc i) fun _ l' => l' = l.hold n { x with addrs := [], data := [] }
  | iputTest {l : Loc} {i : IId} {n : Nat} (mid : l.mid = .idle) (refs : 0 < l.refs (i, n))
      (free : l.held n = none ∨ 2 ≤ l.refs (i, n)) :
    Rule l (.iputTest i) fun r l' => (r = false → l' = l.drop (i, n)) ∧
      (r = true → ∃ x, l.held n = none ∧ l' = { l.hold n x with mid := .doomed (i, n) })
  | invalidate {l : Loc} {i : IId} {n : Nat} (mid : l.mid = .dead (i, n)) :
    Rule l (.invalidate i) fun _ l' => l' = { l with mid := .void (i, n) }
  | iputRelease {l : Loc} {i : IId} {n : Nat} (mid : l.mid = .void (i, n)) :
    Rule l (.iputRelease i) fun _ l' => l' = { l with mid := .gone (i, n) }
  | iputDrop {l : Loc} {i : IId} {n : Nat} (mid : l.mid = .gone (i, n)) :
    Rule l (.iputDrop i) fun _ l' => l' = { l.drop (i, n) with mid := .idle }
  | alloc {l : Loc} {n : Nat} {type : IType} (mid : l.mid = .idle) (notFree : type ≠ .free) :
    Rule l (.alloc n type) fun r l' => l = l' ∧ (r = true → l.held n = none)
  | cwd {l : Loc} (live : l.mid ≠ .exited) :
    Rule l .cwd fun r l' => (∃ n, l.cwd = some (r, n)) ∧ l = l'
  | setCwd {l : Loc} {c : Option Ptr} (live : l.mid ≠ .exited) :
    Rule l (.setCwd (c.map Prod.fst)) fun _ l' => l' = { l with cwd := c }
  | fd {l : Loc} {fd : Fd} (live : l.mid ≠ .exited) :
    Rule l (.fd fd) fun r l' => l.ofile fd = r ∧ l = l'
  | fdclear {l : Loc} {fd : Fd} (live : l.mid ≠ .exited) :
    Rule l (.fdclear fd) fun _ l' => l' = l.setFd fd none
  | fdalloc {l : Loc} {f : FId} (live : l.mid ≠ .exited) : Rule l (.fdalloc f) fun r l' =>
      (r = none → l = l') ∧ ∀ fd, r = some fd → l.ofile fd = none ∧ l' = l.setFd fd (some f)
  | filealloc {l : Loc} (live : l.mid ≠ .exited) : Rule l .filealloc fun r l' =>
      (r = none → l = l') ∧ ∀ f, r = some f → l.files f = 0 ∧ f ∉ l.fresh ∧ l' = l.newFile f
  | filedup {l : Loc} {f : FId} (live : l.mid ≠ .exited) (files : 0 < l.files f) :
    Rule l (.filedup f) fun _ l' =>
      l' = { l with files := l.files + Pi.single f 1, fresh := l.fresh \ {f} }
  -- what the last reference to a file stood for goes over to the process
  | fileclose {l : Loc} {f : FId} (mid : l.mid = .idle) (files : 0 < l.files f)
      (refs : ∀ i n, l.held n ≠ none → l.Uses (i, n) → 0 < l.refs (i, n)) :
    Rule l (.fileclose f) fun r l' =>
      (r = none → l' = l.closeFile f) ∧
      ∀ ff, r = some ff → (f ∈ l.fresh → ff.type = .none) ∧
        ∃ n, l' = { l.closeFile f with
          refs := if ff.type = .inode ∨ ff.type = .device then l.refs + Pi.single (ff.ip, n) 1
            else l.refs
          ends := if ff.type = .pipe then l.ends + Pi.single (ff.pipe, ff.writable) 1 else l.ends }
  | file {l : Loc} {f : FId} (live : l.mid ≠ .exited) (files : 0 < l.files f) :
    Rule l (.file f) fun r l' => l = l' ∧ (f ∈ l.fresh → r.ref = 1)
  | fileVia {l : Loc} {f : FId} (mid : l.mid = .idle) (files : 0 < l.files f)
      (unlocked : l.Unlocked) :
    Rule l (.file f) fun r l' => ∃ n, l' = l.look n f r
  -- the reference to the inode goes over to the file
  | setFile {l : Loc} {f : FId} {x : File} {n : Nat} (mid : l.mid = .idle) (fresh : f ∈ l.fresh)
      (ref : x.ref = 1) (type : x.type = .inode ∨ x.type = .device) (refs : 0 < l.refs (x.ip, n))
      (held : ∀ i m, l.held m ≠ none → l.Uses (i, m) → (i, m) = (x.ip, n) ∨ 0 < l.refs (i, m)) :
    Rule l (.setFile f x) fun _ l' => l' = { l with
      refs := l.refs - Pi.single (x.ip, n) 1, fresh := l.fresh \ {f}
      via := some (f, (x.ip, n)) }
  -- the end of the pipe goes over to the file
  | setFilePipe {l : Loc} {f : FId} {x : File} (live : l.mid ≠ .exited) (fresh : f ∈ l.fresh)
      (ref : x.ref = 1) (type : x.type = .pipe) (ends : 0 < l.ends (x.pipe, x.writable)) :
    Rule l (.setFile f x) fun _ l' => l' = { l with
      ends := l.ends - Pi.single (x.pipe, x.writable) 1, fresh := l.fresh \ {f} }
  | setOff {l : Loc} {f : FId} {off : Nat} (live : l.mid ≠ .exited) (files : 0 < l.files f) :
    Rule l (.setOff f off) fun _ l' => l = l'
  | pipeNew {l : Loc} (live : l.mid ≠ .exited) : Rule l .pipeNew fun r l' =>
      (r = none → l = l') ∧ ∀ pi, r = some pi →
        l' = { l with ends := l.ends + Pi.single (pi, false) 1 + Pi.single (pi, true) 1 }
  | pipeAccess {l : Loc} {f : FId} {pi : Nat} (live : l.mid ≠ .exited)
      (via : l.viaPipe = some (f, pi)) : Rule l (.pipeAccess pi) fun _ l' => l = l'
  | pipeclose {l : Loc} {pi : Nat} {w : Bool} (live : l.mid ≠ .exited) (ends : 0 < l.ends (pi, w)) :
    Rule l (.pipeclose pi w) fun r l' =>
      (r = true → l' = { l with
        ends := l.ends - Pi.single (pi, w) 1, corpses := l.corpses + Pi.single pi 1 }) ∧
      (r = false → l' = { l with ends := l.ends - Pi.single (pi, w) 1 })
  | kfree {l : Loc} {pi : Nat} (live : l.mid ≠ .exited) (corpse : 0 < l.corpses pi) :
    Rule l (.kfree pi) fun _ l' => l' = { l with corpses := l.corpses - Pi.single pi 1 }
  | allocproc {l : Loc} (live : l.mid ≠ .exited) (kid : l.kid = none) :
      Rule l .allocproc fun r l' =>
      (r = true → l' = { l with kid := some ⟨fun _ => none, none⟩ }) ∧ (r = false → l = l')
  | freeproc {l : Loc} (live : l.mid ≠ .exited) (kid : l.kid = some ⟨fun _ => none, none⟩) :
    Rule l .freeproc fun _ l' => l' = { l with kid := none }
  | childFd {l : Loc} {k : Kid} {fd : Fd} {f : FId} (live : l.mid ≠ .exited)
      (kid : l.kid = some k) :
    Rule l (.childFd fd f) fun _ l' => l' = { l with
      kid := some { k with ofile := Function.update k.ofile fd (some f) } }
  | childCwd {l : Loc} {k : Kid} {q : Ptr} (live : l.mid ≠ .exited) (kid : l.kid = some k)
      (refs : 0 < l.refs q) :
    Rule l (.childCwd q.1) fun _ l' => l' = { l with kid := some { k with cwd := some q } }
  -- the references of the new process become its own
  | runnable {l : Loc} {k : Kid} (mid : l.mid = .idle) (kid : l.kid = some k)
      (unlocked : l.Unlocked) (fresh : l.fresh = ∅) (cwd : k.cwd ≠ none)
      (refs : cwdRefs k.cwd ≤ l.refs) (files : fdFiles k.ofile ≤ l.files) :
    Rule l .runnable fun _ l' => l' = { l with
      refs := l.refs - cwdRefs k.cwd, files := l.files - fdFiles k.ofile
      via := none, viaPipe := none, kid := none }
  | zombie {l : Loc} (mid : l.mid = .idle) (idle : l.Idle) (cwd : l.cwd = none)
      (ofile : l.ofile = fun _ => none) :
    Rule l .zombie fun _ l' => l' = { l with mid := .exited, via := none, viaPipe := none }
  | panic {l : Loc} {e : Panic} (live : l.mid ≠ .exited) (ok : e ∉ lostPanics ++ entryPanics) :
    Rule l (.panic e) fun _ _ => True
  -- only a full directory makes `dirlink` panic
  | panicFull {l : Loc} {i : IId} {d : Nat} {x : Node} (live : l.mid ≠ .exited)
      (uses : l.Uses (i, d))
      (held : l.held d = some (x, x)) (type : x.type = .dir) (full : Full x.data) :
    Rule l (.panic .dirlink) fun _ _ => True

end Xv6.Dir
