import Xv6.Dir.Entries
import Xv6.Fs.State
import Xv6.Layout
import Xv6.Lib.Concur

/-!
# The directory layer of `fs.c` and the calls of `sysfile.c`

Inodes with their contents are the units here: what `readi`, `writei`, `itrunc` and `iupdate` do to
the blocks happens under the sleep-lock of the inode and is one operation. Critical sections are one
operation each. There is one device, `ROOTDEV`. Of a pipe there is what the file table has to do
with.
-/

namespace Xv6.Dir

open Lib Function List

abbrev FId := Fin NFILE
abbrev Fd := Fin NOFILE

/-! ## The state -/

/-- `struct inode` in the inode table. -/
structure InCore (P : Type) where
  inum : Nat
  ref : Nat
  lock : Option P
  valid : Bool
  node : Node

/-- `struct file`; a pipe is the page that holds it. -/
structure File where
  type : FileType
  ref : Nat
  readable : Bool
  writable : Bool
  pipe : Nat
  ip : IId
  off : Nat
  major : Nat
  deriving DecidableEq, Repr

/-- `struct pipe` without what is in it. -/
structure Pipe where
  readopen : Bool
  writeopen : Bool
  deriving DecidableEq, Repr

/-- `p->state`, where `live` is any state of a process that can run. -/
inductive Stage where
  | unused | used | live | zombie
  deriving DecidableEq, Repr

structure St (P : Type) where
  disk : Nat → Node
  inode : IId → InCore P
  file : FId → File
  ofile : P → Fd → Option FId
  cwd : P → Option IId
  stage : P → Stage
  -- the process that `fork` is making
  child : P → Option P
  -- the pages that are pipes, and the pages to be had from `kalloc`
  pipe : Nat → Option Pipe
  free : List Nat
  -- whose operations the log counts as outstanding
  busy : P → Bool
  committing : Option P
  -- whether the log has space for one more operation
  room : Bool
  -- the addresses that `bmap` makes of those of an inode for a content of the given size
  bmap : List Nat → Nat → List Nat
  -- the entry of the process table that `allocproc` finds
  spare : Option P

inductive Op where
  -- the critical sections of `begin_op` and `end_op`, and the commit
  | beginOp
  | endOp
  | commit
  | iget (inum : Nat)
  | idup (i : IId)
  -- the two halves of `ilock`
  | acquire (i : IId)
  | load (i : IId)
  | iunlock (i : IId)
  -- the number of a referenced inode
  | inum (i : IId)
  -- the fields of a locked inode
  | inode (i : IId)
  | setInode (i : IId) (x : Node)
  | iupdate (i : IId)
  | readi (i : IId) (off n : Nat)
  -- `n` bytes are to be written and `bs` are there to be copied
  | writei (i : IId) (off n : Nat) (bs : List UInt8)
  | itrunc (i : IId)
  -- `iput` up to `itrunc`, or all of it
  | iputTest (i : IId)
  | invalidate (i : IId)
  | iputRelease (i : IId)
  | iputDrop (i : IId)
  -- one round of the loop of `ialloc`
  | alloc (inum : Nat) (type : IType)
  | cwd
  | setCwd (c : Option IId)
  | fd (fd : Fd)
  | fdalloc (f : FId)
  | fdclear (fd : Fd)
  | filealloc
  | fileclose (f : FId)
  | file (f : FId)
  | setFile (f : FId) (x : File)
  | setOff (f : FId) (off : Nat)
  | filedup (f : FId)
  -- `kalloc` and the assignments to the new pipe
  | pipeNew
  -- `piperead` or `pipewrite` between two sleeps
  | pipeAccess (pi : Nat)
  -- `pipeclose` up to `kfree`, which is to follow if the result says so
  | pipeclose (pi : Nat) (writable : Bool)
  | kfree (pi : Nat)
  | allocproc
  | freeproc
  | childFd (fd : Fd) (f : FId)
  | childCwd (c : IId)
  -- the new process can run
  | runnable
  | zombie
  | panic (e : Panic)

@[reducible] def Op.Res : Op → Type
  | .endOp | .iputTest _ | .alloc .. | .pipeclose .. | .allocproc => Bool
  | .iget _ | .cwd => IId
  | .inum _ => Nat
  | .inode _ => Node
  | .readi .. => List UInt8
  | .writei .. => Int
  | .fd _ => Option FId
  | .fdalloc _ => Option Fd
  | .filealloc => Option FId
  | .fileclose _ => Option File
  | .file _ => File
  | .pipeNew => Option Nat
  | .panic _ => Empty
  | _ => Unit

def iface : Iface := ⟨Op, Op.Res⟩

/-- The blocks that a content of `len` bytes takes, the indirect block included. -/
def blocks (len : Nat) : Nat :=
  let n := (len + BSIZE - 1) / BSIZE
  if NDIRECT < n then n + 1 else n

section Exec

variable {P : Type}

namespace St

def setInode (s : St P) (i : IId) (x : InCore P) : St P :=
  { s with inode := update s.inode i x }

def setDisk (s : St P) (i : Nat) (x : Node) : St P := { s with disk := update s.disk i x }

def setFile (s : St P) (f : FId) (x : File) : St P := { s with file := update s.file f x }

def setPipe (s : St P) (pi : Nat) (x : Option Pipe) : St P :=
  { s with pipe := update s.pipe pi x }

/-- The inode is changed in memory and on disk. -/
def store (s : St P) (i : IId) (x : Node) : St P :=
  (s.setInode i { s.inode i with node := x }).setDisk (s.inode i).inum x

/-- The entry of the inode table that `iget` returns, and whether it was there. -/
def find (s : St P) (inum : Nat) : Option (IId × Bool) :=
  match (finRange NINODE).find? fun i =>
      0 < (s.inode i).ref && (s.inode i).inum == inum with
  | some i => some (i, true)
  | none =>
    ((finRange NINODE).find? fun i => (s.inode i).ref == 0).map fun i => (i, false)

end St

variable {s : St P} {n : Nat} {i : IId}

theorem St.find_true (h : s.find n = some (i, true)) :
    0 < (s.inode i).ref ∧ (s.inode i).inum = n := by
  rw [find] at h
  split at h
  · cases h
    simpa using find?_some (p := fun i => decide (0 < (s.inode i).ref) && (s.inode i).inum == n) ‹_›
  · simp at h

theorem St.find_false (h : s.find n = some (i, false)) :
    (s.inode i).ref = 0 ∧ ∀ j, 0 < (s.inode j).ref → (s.inode j).inum ≠ n := by
  rw [find] at h
  split at h
  · cases h
  · rename_i hnone
    obtain ⟨k, hk, hki⟩ := Option.map_eq_some_iff.1 h
    cases hki
    refine ⟨by simpa using find?_some hk, fun j hj => ?_⟩
    have := find?_eq_none.1 hnone j (mem_finRange j)
    simpa [hj] using this

variable (sb : Superblock)

def used (disk : Nat → Node) : Nat :=
  ((range sb.ninodes).map fun i => blocks (disk i).data.length).sum

variable [DecidableEq P] [Fintype P]

def exec (p : P) : (o : Op) → St P → Outcome Panic (o.Res × St P)
  | .beginOp, s =>
    if s.committing.isSome ∨ !s.room then .blocked
    else .ok ((), { s with busy := update s.busy p true })
  | .endOp, s =>
    if s.committing.isSome then .panic .logCommitting
    else
      let busy := update s.busy p false
      if ∃ q, busy q then .ok (false, { s with busy })
      else .ok (true, { s with busy, committing := some p })
  | .commit, s => .ok ((), { s with committing := none })
  | .iget inum, s =>
    match s.find inum with
    | some (i, true) => .ok (i, s.setInode i { s.inode i with ref := (s.inode i).ref + 1 })
    | some (i, false) => .ok (i, s.setInode i { s.inode i with inum, ref := 1, valid := false })
    | none => .panic .igetNoInodes
  | .idup i, s => .ok ((), s.setInode i { s.inode i with ref := (s.inode i).ref + 1 })
  | .acquire i, s =>
    if (s.inode i).ref < 1 then .panic .ilock
    else if (s.inode i).lock = none then .ok ((), s.setInode i { s.inode i with lock := some p })
    else .blocked
  | .load i, s =>
    if (s.inode i).valid then .ok ((), s)
    else if (s.disk (s.inode i).inum).type = .free then .panic .ilockNoType
    else .ok ((), s.setInode i { s.inode i with valid := true, node := s.disk (s.inode i).inum })
  | .iunlock i, s =>
    if (s.inode i).lock ≠ some p ∨ (s.inode i).ref < 1 then .panic .iunlock
    else .ok ((), s.setInode i { s.inode i with lock := none })
  | .inum i, s => .ok ((s.inode i).inum, s)
  | .inode i, s => .ok ((s.inode i).node, s)
  | .setInode i x, s => .ok ((), s.setInode i { s.inode i with node := x })
  | .iupdate i, s => .ok ((), s.setDisk (s.inode i).inum (s.inode i).node)
  | .readi i off n, s =>
    let data := (s.inode i).node.data
    .ok (if data.length < off ∨ (off + n) % 2 ^ 32 < off then [] else slice data off n, s)
  | .writei i off n bs, s =>
    let x := (s.inode i).node
    if x.data.length < off ∨ (off + n) % 2 ^ 32 < off then .ok ((-1 : Int), s)
    else if MAXFILE * BSIZE < off + n then .ok ((-1 : Int), s)
    else
      let data := splice x.data off (bs.take n)
      let x := { x with data, addrs := s.bmap x.addrs data.length }
      if sb.nblocks < used sb (update s.disk (s.inode i).inum x) then .panic .ballocOutOfBlocks
      else .ok (((bs.take n).length : Int), s.store i x)
  | .itrunc i, s => .ok ((), s.store i { (s.inode i).node with addrs := [], data := [] })
  | .iputTest i, s =>
    if (s.inode i).ref = 1 ∧ (s.inode i).valid ∧ (s.inode i).node.nlink = 0 then
      if (s.inode i).lock = none then
        .ok (true, s.setInode i { s.inode i with lock := some p })
      else .blocked
    else .ok (false, s.setInode i { s.inode i with ref := (s.inode i).ref - 1 })
  | .invalidate i, s => .ok ((), s.setInode i { s.inode i with valid := false })
  | .iputRelease i, s => .ok ((), s.setInode i { s.inode i with lock := none })
  | .iputDrop i, s => .ok ((), s.setInode i { s.inode i with ref := (s.inode i).ref - 1 })
  | .alloc n type, s =>
    if (s.disk n).type = .free then .ok (true, s.setDisk n ⟨type, 0, 0, 0, [], []⟩)
      else .ok (false, s)
  | .cwd, s =>
    match s.cwd p with
    | some c => .ok (c, s)
    | none => .blocked
  | .setCwd c, s => .ok ((), { s with cwd := update s.cwd p c })
  | .fd fd, s => .ok (s.ofile p fd, s)
  | .fdalloc f, s =>
    match (finRange NOFILE).find? fun fd => (s.ofile p fd).isNone with
    | some fd => .ok (some fd, { s with
        ofile := update s.ofile p (update (s.ofile p) fd (some f)) })
    | none => .ok (none, s)
  | .fdclear fd, s => .ok ((), { s with
      ofile := update s.ofile p (update (s.ofile p) fd none) })
  | .filealloc, s =>
    match (finRange NFILE).find? fun f => (s.file f).ref == 0 with
    | some f => .ok (some f, s.setFile f { s.file f with ref := 1 })
    | none => .ok (none, s)
  | .fileclose f, s =>
    if (s.file f).ref < 1 then .panic .fileclose
    else if 1 < (s.file f).ref then
      .ok (none, s.setFile f { s.file f with ref := (s.file f).ref - 1 })
    else .ok (some (s.file f), s.setFile f { s.file f with ref := 0, type := .none })
  | .file f, s => .ok (s.file f, s)
  | .setFile f x, s => .ok ((), s.setFile f x)
  | .setOff f off, s => .ok ((), s.setFile f { s.file f with off })
  | .filedup f, s =>
    if (s.file f).ref < 1 then .panic .filedup
    else .ok ((), s.setFile f { s.file f with ref := (s.file f).ref + 1 })
  | .pipeNew, s =>
    match s.free with
    | [] => .ok (none, s)
    | pi :: free => .ok (some pi, { s.setPipe pi (some ⟨true, true⟩) with free })
  | .pipeAccess _, s => .ok ((), s)
  | .pipeclose pi writable, s =>
    match s.pipe pi with
    | none => .ok (false, s)
    | some x =>
      let x := if writable then { x with writeopen := false } else { x with readopen := false }
      .ok (!x.readopen && !x.writeopen, s.setPipe pi (some x))
  | .kfree pi, s => .ok ((), { s.setPipe pi none with free := pi :: s.free })
  | .allocproc, s =>
    match s.spare with
    | none => .ok (false, s)
    | some q =>
      if s.stage q = .unused then
        .ok (true, { s with
          stage := update s.stage q .used, child := update s.child p (some q) })
      else .ok (false, s)
  | .freeproc, s =>
    match s.child p with
    | none => .blocked
    | some q => .ok ((), { s with
        stage := update s.stage q .unused, child := update s.child p none })
  | .childFd fd f, s =>
    match s.child p with
    | none => .blocked
    | some q => .ok ((), { s with
        ofile := update s.ofile q (update (s.ofile q) fd (some f)) })
  | .childCwd c, s =>
    match s.child p with
    | none => .blocked
    | some q => .ok ((), { s with cwd := update s.cwd q (some c) })
  | .runnable, s =>
    match s.child p with
    | none => .blocked
    | some q => .ok ((), { s with
        stage := update s.stage q .live, child := update s.child p none })
  | .zombie, s => .ok ((), { s with stage := update s.stage p .zombie })
  | .panic e, _ => .panic e

end Exec

/-! ## `fs.c` -/

abbrev Code := Prog iface

def op (o : Op) : Code o.Res := Prog.perform (E := iface) o

def panic {α : Type} (e : Panic) : Code α := .call (E := iface) (.panic e) nofun

def beginOp : Code Unit := op .beginOp

def endOp : Code Unit := do
  let doCommit : Bool ← op .endOp
  if doCommit then op .commit

def ilock (ip : IId) : Code Unit := do
  op (.acquire ip)
  op (.load ip)

def iunlock (ip : IId) : Code Unit := op (.iunlock ip)

def iput (ip : IId) : Code Unit := do
  let last : Bool ← op (.iputTest ip)
  if last then
    op (.itrunc ip)
    let x : Node ← op (.inode ip)
    op (.setInode ip { x with type := .free })
    op (.iupdate ip)
    op (.invalidate ip)
    op (.iputRelease ip)
    op (.iputDrop ip)

def iunlockput (ip : IId) : Code Unit := do
  iunlock ip
  iput ip

/-- Assign to fields of a locked inode, then `iupdate`. -/
def update (ip : IId) (f : Node → Node) : Code Unit := do
  let x : Node ← op (.inode ip)
  op (.setInode ip (f x))
  op (.iupdate ip)

def Node.incr (x : Node) : Node := { x with nlink := (x.nlink + 1) % 2 ^ 16 }

def Node.decr (x : Node) : Node := { x with nlink := (x.nlink + 2 ^ 16 - 1) % 2 ^ 16 }

/-- The loop of `ialloc` from `inum` on. -/
def iallocFrom (sb : Superblock) (type : IType) : (fuel inum : Nat) → Code IId
  | 0, _ => panic .iallocNoInodes
  | fuel + 1, inum =>
    if inum < sb.ninodes then do
      let done : Bool ← op (.alloc inum type)
      if done then
        op (.iget inum)
      else iallocFrom sb type fuel (inum + 1)
    else panic .iallocNoInodes

def ialloc (sb : Superblock) (type : IType) : Code IId := iallocFrom sb type sb.ninodes 1

/-- The loop of `dirlookup` from `off` on. -/
def dirlookupFrom (dp : IId) (name : List UInt8) : (fuel off : Nat) → Code (Option (IId × Nat))
  | 0, _ => return none
  | fuel + 1, off => do
    let x : Node ← op (.inode dp)
    if off < x.data.length then
      let bs : List UInt8 ← op (.readi dp off DESIZE)
      if bs.length ≠ DESIZE then panic .dirlookupRead
      else if (Dirent.ofBytes bs).inum = 0 then dirlookupFrom dp name fuel (off + DESIZE)
      else if namecmp name (Dirent.ofBytes bs).name then
        let ip : IId ← op (.iget (Dirent.ofBytes bs).inum)
        return some (ip, off)
      else dirlookupFrom dp name fuel (off + DESIZE)
    else return none

/-- The inode that the entry `name` names, and the offset of the entry. -/
def dirlookup (dp : IId) (name : List UInt8) : Code (Option (IId × Nat)) := do
  let x : Node ← op (.inode dp)
  if x.type ≠ .dir then panic .dirlookupNotDir
  else dirlookupFrom dp name (x.data.length + 1) 0

/-- The loop of `dirlink`. -/
def emptyFrom (dp : IId) : (fuel off : Nat) → Code Nat
  | 0, off => return off
  | fuel + 1, off => do
    let x : Node ← op (.inode dp)
    if off < x.data.length then
      let bs : List UInt8 ← op (.readi dp off DESIZE)
      if bs.length ≠ DESIZE then panic .dirlinkRead
      else if (Dirent.ofBytes bs).inum = 0 then return off
      else emptyFrom dp fuel (off + DESIZE)
    else return off

/-- Whether the entry could be made. -/
def dirlink (dp : IId) (name : List UInt8) (inum : Nat) : Code Bool := do
  let found ← dirlookup dp name
  match found with
  | some (ip, _) =>
    iput ip
    return false
  | none =>
    let x : Node ← op (.inode dp)
    let off ← emptyFrom dp (x.data.length + 1) 0
    let r : Int ← op (.writei dp off DESIZE (Dirent.mk' name inum).bytes)
    if r ≠ DESIZE then panic .dirlink else return true

abbrev Path := List UInt8

def slash : UInt8 := 47

/-- The rest of the path and the name of its first element. -/
def skipelem (path : Path) : Option (Path × List UInt8) :=
  match path.dropWhile (· == slash) with
  | [] => none
  | s :: ss =>
    some (((s :: ss).dropWhile (· != slash)).dropWhile (· == slash),
      ((s :: ss).takeWhile (· != slash)).take DIRSIZ)

/-- The names that successive calls of `skipelem` give. -/
def elemsFrom : (fuel : Nat) → Path → List (List UInt8)
  | 0, _ => []
  | fuel + 1, path =>
    match skipelem path with
    | none => []
    | some (rest, name) => name :: elemsFrom fuel rest

def elems (path : Path) : List (List UInt8) := elemsFrom path.length path

variable {path rest : Path} {name : List UInt8}

theorem skipelem_eq_some
    (h : skipelem path = some (rest, name)) :
    rest.length < path.length ∧ ∀ c ∈ rest.head?, (c == slash) = false := by
  have hle := (dropWhile_suffix (l := path) (· == slash)).length_le
  rw [skipelem] at h
  split at h
  · cases h
  · rename_i s ss hs
    rw [hs] at hle
    have hs0 : (s == slash) = false := by
      have := head?_dropWhile_not (· == slash) path
      simpa [hs] using this
    cases h
    refine ⟨?_, fun c hc => ?_⟩
    · have h₁ := (dropWhile_suffix (l := (s :: ss).dropWhile (· != slash)) (· == slash)).length_le
      have h₂ := (dropWhile_suffix (l := ss) (· != slash)).length_le
      rw [dropWhile_cons_of_pos (by simp [bne, hs0])] at h₁ ⊢
      simp only [length_cons] at hle
      omega
    · have := head?_dropWhile_not (· == slash) ((s :: ss).dropWhile (· != slash))
      rw [Option.mem_def.1 hc] at this
      simpa using this

theorem elemsFrom_eq {fuel : Nat} (h : path.length ≤ fuel) :
    elemsFrom fuel path = elems path := by
  induction fuel using Nat.strong_induction_on generalizing path with
  | _ fuel ih =>
    rw [elems]
    match fuel, path with
    | 0, [] => rfl
    | fuel + 1, [] => simp [elemsFrom, skipelem]
    | fuel + 1, c :: cs =>
      simp only [length_cons, elemsFrom]
      cases hs : skipelem (c :: cs) with
      | none => rfl
      | some r =>
        have hlt := (skipelem_eq_some hs).1
        simp only [length_cons] at h hlt
        have h₁ : elemsFrom fuel r.1 = elems r.1 := ih fuel (by omega) (by omega)
        have h₂ : elemsFrom cs.length r.1 = elems r.1 := ih cs.length (by omega) (by omega)
        simp only [h₁, h₂]

theorem elems_eq (path : Path) :
    elems path = match skipelem path with
      | none => []
      | some (rest, name) => name :: elems rest := by
  rw [← elemsFrom_eq (Nat.le_succ path.length), elemsFrom]
  cases hs : skipelem path with
  | none => rfl
  | some r => simp only [elemsFrom_eq (skipelem_eq_some hs).1.le]

/-- The element just read is the last one if nothing is left of the path. -/
theorem elems_eq_nil (h : skipelem path = some (rest, name)) :
    elems rest = [] ↔ rest = [] := by
  constructor
  · intro hn
    cases rest with
    | nil => rfl
    | cons c cs =>
      have hc := (skipelem_eq_some h).2 c rfl
      rw [elems_eq, skipelem, dropWhile_cons_of_neg (by simp [hc])] at hn
      cases hn
  · rintro rfl
    rfl

/-- The loop of `namex`. -/
def namexFrom (nameiparent : Bool) : List (List UInt8) → IId → Code (Option (IId × List UInt8))
  | [], ip =>
    if nameiparent then do
      iput ip
      return none
    else return some (ip, [])
  | name :: rest, ip => do
    ilock ip
    let x : Node ← op (.inode ip)
    if x.type ≠ .dir then
      iunlockput ip
      return none
    else if nameiparent && rest.isEmpty then
      iunlock ip
      return some (ip, name)
    else
      let found ← dirlookup ip name
      match found with
      | none =>
        iunlockput ip
        return none
      | some (next, _) =>
        iunlockput ip
        namexFrom nameiparent rest next

/-- Where `namex` starts. -/
def namexStart (path : Path) : Code IId :=
  if path.head? = some slash then op (.iget ROOTINO)
  else do
    let c : IId ← op .cwd
    op (.idup c)
    return c

def namex (path : Path) (nameiparent : Bool) : Code (Option (IId × List UInt8)) := do
  let ip ← namexStart path
  namexFrom nameiparent (elems path) ip

def namei (path : Path) : Code (Option (IId × List UInt8)) := namex path false

def nameiparent (path : Path) : Code (Option (IId × List UInt8)) := namex path true

end Xv6.Dir
