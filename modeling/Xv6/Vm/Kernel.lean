import Xv6.Vm.Code

/-!
# Processes, programs and pipes as users of pages

`allocproc`, `freeproc`, `proc_pagetable`, `growproc`, `fork`, `exit` and `wait` of `proc.c`,
`exec.c`, `file.c`, `pipe.c` and the system calls `exec`, `pipe` and `close` of `sysfile.c`, as far
as pages are concerned. A call runs from its beginning to its end; a `wait` that finds no zombie
does nothing. `exec` is given the bytes of the file and reads the headers and segments from them.
-/

namespace Xv6.Vm

open Lib Function List

namespace Kern

def setProc (k : Kern) (q : Slot) (x : UProc) : Kern := { k with proc := update k.proc q x }

def setFile (k : Kern) (f : FileId) (x : File) : Kern := { k with file := update k.file f x }

theorem proc_setProc (k : Kern) (q : Slot) (x : UProc) (r : Slot) :
    (k.setProc q x).proc r = if r = q then x else k.proc r := update_apply ..

@[simp] theorem proc_setProc_self (k : Kern) (q : Slot) (x : UProc) : (k.setProc q x).proc q = x :=
  update_self ..

theorem setProc_setProc (k : Kern) (q : Slot) (x y : UProc) :
    (k.setProc q x).setProc q y = k.setProc q y := by
  rw [setProc, setProc, setProc, update_idem]

theorem file_setFile (k : Kern) (f : FileId) (x : File) (g : FileId) :
    (k.setFile f x).file g = if g = f then x else k.file g := update_apply ..

end Kern

def kern : Code Kern := op .kern

def setProc (q : Slot) (f : UProc → UProc) : Code Unit := do
  let k ← kern
  op (.setKern (k.setProc q (f (k.proc q))))

def setFile (f : FileId) (x : File) : Code Unit := do
  let k ← kern
  op (.setKern (k.setFile f x))

/-! ## Address spaces -/

def trampPerm : Pte := ⟨0, true, true, false, true, false⟩
def framePerm : Pte := ⟨0, true, true, true, false, false⟩

/-- `proc_pagetable` for a process with trapframe `frame`. -/
def procPagetable (frame : Nat) : Code (Option Nat) := do
  let r ← uvmcreate
  match r with
  | none => pure none
  | some root =>
    let tramp : Nat ← op .tramp
    let ok ← mappages root (trampoline * PGSIZE) PGSIZE tramp trampPerm
    if ok then
      let ok ← mappages root (trapframe * PGSIZE) PGSIZE frame framePerm
      if ok then pure (some root)
      else
        uvmunmap root (trampoline * PGSIZE) 1 false
        uvmfree root 0
        pure none
    else
      uvmfree root 0
      pure none

def procFreepagetable (root sz : Nat) : Code Unit := do
  uvmunmap root (trampoline * PGSIZE) 1 false
  uvmunmap root (trapframe * PGSIZE) 1 false
  uvmfree root sz

def kfreeOpt : Option Nat → Code Unit
  | none => pure ()
  | some n => op (.kfree n)

def freeproc (q : Slot) : Code Unit := do
  let k ← kern
  kfreeOpt (k.proc q).trapframe
  match (k.proc q).pagetable with
  | none => pure ()
  | some root => procFreepagetable root (k.proc q).sz
  setProc q fun x => { UProc.zero with ofile := x.ofile }

/-- The first entry that is free. -/
def Kern.unused (k : Kern) : Option Slot :=
  (finRange NPROC).find? fun q => (k.proc q).state = .unused

def allocproc : Code (Option Slot) := do
  let k ← kern
  match k.unused with
  | none => pure none
  | some q =>
    setProc q fun x => { x with state := .used }
    let r ← kalloc
    match r with
    | none =>
      freeproc q
      pure none
    | some frame =>
      setProc q fun x => { x with trapframe := some frame }
      let r ← procPagetable frame
      match r with
      | none =>
        freeproc q
        pure none
      | some root =>
        setProc q fun x => { x with pagetable := some root }
        pure (some q)

/-- `struct trapframe`: its size, and the offsets of the registers that the kernel sets. -/
def Trapframe.size : Nat := 288
def Trapframe.epc : Nat := 24
def Trapframe.sp : Nat := 48
def Trapframe.a0 : Nat := 112
def Trapframe.a1 : Nat := 120

def initcode : List UInt8 := [
  0x17, 0x05, 0x00, 0x00, 0x13, 0x05, 0x45, 0x02,
  0x97, 0x05, 0x00, 0x00, 0x93, 0x85, 0x35, 0x02,
  0x93, 0x08, 0x70, 0x00, 0x73, 0x00, 0x00, 0x00,
  0x93, 0x08, 0x20, 0x00, 0x73, 0x00, 0x00, 0x00,
  0xef, 0xf0, 0x9f, 0xff, 0x2f, 0x69, 0x6e, 0x69,
  0x74, 0x00, 0x00, 0x24, 0x00, 0x00, 0x00, 0x00,
  0x00, 0x00, 0x00, 0x00]

/-- `userinit`: the first process, with one page. The result is whether memory sufficed. -/
def userinit : Code Bool := do
  let r ← allocproc
  match r with
  | none => pure false
  | some q =>
    let k ← kern
    match (k.proc q).pagetable, (k.proc q).trapframe with
    | some root, some frame =>
      let ok ← uvminit root initcode
      if ok then
        op (.fill frame Trapframe.epc (Bytes.number 8 0))
        op (.fill frame Trapframe.sp (Bytes.number 8 PGSIZE))
        setProc q fun x => { x with sz := PGSIZE, state := .runnable }
        pure true
      else pure false
    | _, _ => pure false

/-- `growproc`; sizes are `uint`. -/
def growproc (p : Slot) (n : Int) : Code Int := do
  let k ← kern
  match (k.proc p).pagetable with
  | none => pure (-1)
  | some root =>
    let sz := (k.proc p).sz % 2 ^ 32
    let newsz := ((sz + n) % 2 ^ 32).toNat
    if 0 < n then
      let r ← uvmalloc root sz newsz
      if r % 2 ^ 32 = 0 then pure (-1)
      else
        setProc p fun x => { x with sz := r % 2 ^ 32 }
        pure 0
    else if n < 0 then
      let r ← uvmdealloc root sz newsz
      setProc p fun x => { x with sz := r % 2 ^ 32 }
      pure 0
    else
      setProc p fun x => { x with sz := sz }
      pure 0

/-! ## Files -/

def filedup (f : FileId) : Code Unit := do
  let k ← kern
  if (k.file f).ref = 0 then op (.panic .filedup)
  else setFile f { k.file f with ref := (k.file f).ref + 1 }

/-- `pipeclose(pi, writable)`. -/
def pipeclose (page : Nat) (writable : Bool) : Code Unit := do
  let k ← kern
  let ends : PipeEnds := if writable then { k.pipe page with writeopen := false }
    else { k.pipe page with readopen := false }
  op (.setKern { k with pipe := update k.pipe page ends })
  if ends.readopen = false ∧ ends.writeopen = false then op (.kfree page) else pure ()

def fileclose (f : FileId) : Code Unit := do
  let k ← kern
  if (k.file f).ref = 0 then op (.panic .fileclose)
  else if 1 < (k.file f).ref then setFile f { k.file f with ref := (k.file f).ref - 1 }
  else
    setFile f { k.file f with ref := 0, kind := .none }
    match (k.file f).kind with
    | .pipe page => pipeclose page (k.file f).writable
    | .none | .other => pure ()

def filealloc : Code (Option FileId) := do
  let k ← kern
  match (finRange NFILE).find? fun f => (k.file f).ref = 0 with
  | none => pure none
  | some f =>
    setFile f { k.file f with ref := 1 }
    pure (some f)

def pipealloc : Code (Option (FileId × FileId)) := do
  let r ← filealloc
  match r with
  | none => pure none
  | some f0 =>
    let r ← filealloc
    match r with
    | none =>
      fileclose f0
      pure none
    | some f1 =>
      let r ← kalloc
      match r with
      | none =>
        fileclose f0
        fileclose f1
        pure none
      | some page =>
        let k ← kern
        op (.setKern { k with pipe := update k.pipe page ⟨true, true⟩ })
        setFile f0 ⟨(k.file f0).ref, .pipe page, false⟩
        setFile f1 ⟨(k.file f1).ref, .pipe page, true⟩
        pure (some (f0, f1))

def fdalloc (p : Slot) (f : FileId) : Code (Option Fd) := do
  let k ← kern
  match (finRange NOFILE).find? fun fd => ((k.proc p).ofile fd).isNone with
  | none => pure none
  | some fd =>
    setProc p fun x => { x with ofile := update x.ofile fd (some f) }
    pure (some fd)

def clearFd (p : Slot) (fd : Fd) : Code Unit :=
  setProc p fun x => { x with ofile := update x.ofile fd none }

/-- `sys_pipe`; `copied` is whether both descriptors could be stored. -/
def sysPipe (p : Slot) (copied : Bool) : Code Int := do
  let r ← pipealloc
  match r with
  | none => pure (-1)
  | some (rf, wf) =>
    let r ← fdalloc p rf
    match r with
    | none =>
      fileclose rf
      fileclose wf
      pure (-1)
    | some fd0 =>
      let r ← fdalloc p wf
      match r with
      | none =>
        clearFd p fd0
        fileclose rf
        fileclose wf
        pure (-1)
      | some fd1 =>
        if copied then pure 0
        else
          clearFd p fd0
          clearFd p fd1
          fileclose rf
          fileclose wf
          pure (-1)

def sysClose (p : Slot) (fd : Fd) : Code Int := do
  let k ← kern
  match (k.proc p).ofile fd with
  | none => pure (-1)
  | some f =>
    clearFd p fd
    fileclose f
    pure 0

/-! ## `fork`, `exit` and `wait` -/

/-- The child gets the files of its parent. -/
def dupFiles (p np : Slot) : List Fd → Code Unit
  | [] => pure ()
  | fd :: fds => do
    let k ← kern
    match (k.proc p).ofile fd with
    | none => dupFiles p np fds
    | some f =>
      filedup f
      setProc np fun x => { x with ofile := update x.ofile fd (some f) }
      dupFiles p np fds

/-- `*(np->trapframe) = *(p->trapframe); np->trapframe->a0 = 0;` -/
def copyTrapframe : (src dst : Option Nat) → Code Unit
  | some src, some dst => do
    op (.move dst src Trapframe.size)
    op (.fill dst Trapframe.a0 (Bytes.number 8 0))
  | _, _ => pure ()

def fork (p : Slot) : Code Int := do
  let r ← allocproc
  match r with
  | none => pure (-1)
  | some np =>
    let k ← kern
    match (k.proc p).pagetable, (k.proc np).pagetable with
    | some old, some new =>
      let ok ← uvmcopy old new (k.proc p).sz
      if ok then
        setProc np fun x => { x with sz := (k.proc p).sz }
        copyTrapframe (k.proc p).trapframe (k.proc np).trapframe
        dupFiles p np (finRange NOFILE)
        setProc np fun x => { x with parent := some p, state := .runnable }
        pure 0
      else
        freeproc np
        pure (-1)
    | _, _ => pure (-1)

def closeFiles (p : Slot) : List Fd → Code Unit
  | [] => pure ()
  | fd :: fds => do
    let k ← kern
    match (k.proc p).ofile fd with
    | none => closeFiles p fds
    | some f =>
      fileclose f
      clearFd p fd
      closeFiles p fds

def initproc : Slot := ⟨0, nproc_pos⟩

/-- `reparent(p)` on the whole table. -/
def Kern.reparent (k : Kern) (p : Slot) : Kern :=
  { k with proc := fun q =>
      if (k.proc q).parent = some p then { k.proc q with parent := some initproc } else k.proc q }

def exit (p : Slot) : Code Unit :=
  if p = initproc then op (.panic .initExiting)
  else do
    closeFiles p (finRange NOFILE)
    let k ← kern
    op (.setKern (k.reparent p))
    setProc p fun x => { x with state := .zombie }

/-- `wait`; `copied` is whether the exit status could be stored. -/
def wait (p : Slot) (copied : Bool) : Code Int := do
  let k ← kern
  match (finRange NPROC).find? fun q => (k.proc q).parent = some p ∧ (k.proc q).state = .zombie with
  | none => pure (-1)
  | some q =>
    if copied then
      freeproc q
      pure 0
    else pure (-1)

/-! ## `exec` -/

def ELF_MAGIC : Nat := 0x464C457F
def ELF_PROG_LOAD : Nat := 1

/-- `readi` from a file with the given content, to the kernel: the bytes that are read. -/
def readi (file : List UInt8) (off n : Nat) : List UInt8 :=
  if file.length < off ∨ (off + n) % 2 ^ 32 < off then [] else (file.drop off).take n

/-- The number in `w` bytes of a structure. -/
def field (bs : List UInt8) (off w : Nat) : Nat := Bytes.read (fun k => bs.getD k 0) w off

/-- `struct proghdr`, as far as `exec` looks at it. -/
structure Phdr where
  type : Nat
  off : Nat
  vaddr : Nat
  filesz : Nat
  memsz : Nat

def Phdr.size : Nat := 56

def Phdr.ofBytes (bs : List UInt8) : Phdr :=
  ⟨field bs 0 4, field bs 8 8, field bs 16 8, field bs 32 8, field bs 40 8⟩

/-- `struct elfhdr`, as far as `exec` looks at it. -/
structure Elfhdr where
  magic : Nat
  entry : Nat
  phoff : Nat
  phnum : Nat

def Elfhdr.size : Nat := 64

def Elfhdr.ofBytes (bs : List UInt8) : Elfhdr :=
  ⟨field bs 0 4, field bs 24 8, field bs 32 8, field bs 56 2⟩

/-- The loop of `loadseg`, at most `rounds` times; `i` is a `uint`. -/
def loadsegLoop (root va : Nat) (file : List UInt8) (offset sz : Nat) : (rounds i : Nat) → Code Bool
  | 0, _ => do
    op .stop
    pure false
  | rounds + 1, i =>
    if i < sz then do
      let pa ← walkaddr root ((va + i) % 2 ^ 64)
      match pa with
      | none =>
        op (.panic .loadseg)
        pure false
      | some page =>
        let n := if sz - i < PGSIZE then sz - i else PGSIZE
        let bs := readi file ((offset + i) % 2 ^ 32) n
        op (.fill page 0 bs)
        if bs.length ≠ n then pure false
        else loadsegLoop root va file offset sz rounds ((i + PGSIZE) % 2 ^ 32)
    else pure true

/-- `loadseg`; `offset` and `sz` are `uint`s. -/
def loadseg (root va : Nat) (file : List UInt8) (offset sz : Nat) : Code Bool :=
  loadsegLoop root va file offset sz (pages sz + 1) 0

/-- The loop of `exec` over the program headers, `n` to go; the size so far, and whether all is
well. -/
def loadHeaders (root : Nat) (file : List UInt8) : (n off sz : Nat) → Code (Nat × Bool)
  | 0, _, sz => pure (sz, true)
  | n + 1, off, sz =>
    let bs := readi file off Phdr.size
    if bs.length ≠ Phdr.size then pure (sz, false)
    else
      let ph := Phdr.ofBytes bs
      let next := (off + Phdr.size) % 2 ^ 32
      if ph.type ≠ ELF_PROG_LOAD then loadHeaders root file n next sz
      else if ph.memsz < ph.filesz then pure (sz, false)
      else if (ph.vaddr + ph.memsz) % 2 ^ 64 < ph.vaddr then pure (sz, false)
      else do
        let sz1 ← uvmalloc root sz ((ph.vaddr + ph.memsz) % 2 ^ 64)
        if sz1 = 0 then pure (sz, false)
        else if ph.vaddr % PGSIZE ≠ 0 then pure (sz1, false)
        else
          let ok ← loadseg root ph.vaddr file (ph.off % 2 ^ 32) (ph.filesz % 2 ^ 32)
          if ok then loadHeaders root file n next sz1 else pure (sz1, false)

/-- The loop of `copyout`, at most `rounds` times. -/
def copyoutLoop (root : Nat) : (rounds dstva : Nat) → (src : List UInt8) → Code Bool
  | 0, _, _ => do
    op .stop
    pure false
  | rounds + 1, dstva, src =>
    if src.length = 0 then pure true
    else do
      let va0 := dstva / PGSIZE * PGSIZE
      let pa0 ← walkaddr root va0
      match pa0 with
      | none => pure false
      | some page =>
        let n := min (PGSIZE - (dstva - va0)) src.length
        op (.fill page (dstva - va0) (src.take n))
        copyoutLoop root rounds ((va0 + PGSIZE) % 2 ^ 64) (src.drop n)

def copyout (root dstva : Nat) (src : List UInt8) : Code Bool :=
  copyoutLoop root (src.length + 1) dstva src

/-- `sp -= n; sp -= sp % 16`. -/
def push (sp n : Nat) : Nat :=
  let sp := (sp + 2 ^ 64 - n) % 2 ^ 64
  sp - sp % 16

/-- The loop of `exec` over the arguments: the stack pointer and the addresses of the strings. -/
def pushArgs (root stackbase : Nat) : (argv : List (List UInt8)) → (sp : Nat) →
    (ustack : List Nat) →
    Code (Option (Nat × List Nat))
  | [], sp, ustack => pure (some (sp, ustack))
  | arg :: argv, sp, ustack =>
    if MAXARG ≤ ustack.length then pure none
    else
      let sp := push sp (arg.length + 1)
      if sp < stackbase then pure none
      else do
        let ok ← copyout root sp (arg ++ [0])
        if ok then pushArgs root stackbase argv sp (ustack ++ [sp]) else pure none

/-- An array of `uint64`. -/
def words (xs : List Nat) : List UInt8 := xs.flatMap (Bytes.number 8)

/-- The arguments and the array of pointers to them: `argc` and the stack pointer. -/
def pushStack (root sz : Nat) (argv : List (List UInt8)) : Code (Option (Nat × Nat)) := do
  let stackbase := sz - PGSIZE
  let r ← pushArgs root stackbase argv sz []
  match r with
  | none => pure none
  | some (sp, ustack) =>
    if MAXARG ≤ ustack.length then
      -- `ustack[argc] = 0` would be past the end
      op .stop
      pure none
    else
      let sp := push sp ((ustack.length + 1) * 8)
      if sp < stackbase then pure none
      else
        let ok ← copyout root sp (words (ustack ++ [0]))
        pure (if ok then some (ustack.length, sp) else none)

/-- `exec` after the program has been loaded: the size, and `argc` and the stack pointer if all is
well. -/
def buildStack (root sz : Nat) (argv : List (List UInt8)) : Code (Nat × Option (Nat × Nat)) := do
  let sz := pages sz * PGSIZE
  let sz1 ← uvmalloc root sz (sz + 2 * PGSIZE)
  if sz1 = 0 then pure (sz, none)
  else
    uvmclear root (sz1 - 2 * PGSIZE)
    let r ← pushStack root sz1 argv
    pure (sz1, r)

/-- `exec` after `proc_pagetable`. -/
def loadImage (root : Nat) (file : List UInt8) (elf : Elfhdr) (argv : List (List UInt8)) :
    Code (Nat × Option (Nat × Nat)) := do
  let (sz, ok) ← loadHeaders root file elf.phnum (elf.phoff % 2 ^ 32) 0
  if ok then buildStack root sz argv else pure (sz, none)

/-- The end of `exec`: the process gets the new image. -/
def commit (p : Slot) (frame old oldsz root sz entry sp : Nat) : Code Unit := do
  op (.fill frame Trapframe.a1 (Bytes.number 8 sp))
  setProc p fun x => { x with pagetable := some root, sz := sz }
  op (.fill frame Trapframe.epc (Bytes.number 8 entry))
  op (.fill frame Trapframe.sp (Bytes.number 8 sp))
  procFreepagetable old oldsz

/-- `exec` of the file that `namei` found. -/
def exec (p : Slot) (file : Option (List UInt8)) (argv : List (List UInt8)) : Code Int :=
  match file with
  | none => pure (-1)
  | some file =>
    let bs := readi file 0 Elfhdr.size
    if bs.length ≠ Elfhdr.size then pure (-1)
    else if (Elfhdr.ofBytes bs).magic ≠ ELF_MAGIC then pure (-1)
    else do
      let k ← kern
      match (k.proc p).trapframe, (k.proc p).pagetable with
      | some frame, some old =>
        let r ← procPagetable frame
        match r with
        | none => pure (-1)
        | some root =>
          let (sz, r) ← loadImage root file (.ofBytes bs) argv
          match r with
          | some (argc, sp) =>
            commit p frame old (k.proc p).sz root sz (Elfhdr.ofBytes bs).entry sp
            pure argc
          | none =>
            procFreepagetable root sz
            pure (-1)
      | _, _ => pure (-1)

/-- The loop of `sys_exec` that fetches the arguments: the pages taken, and whether all is well. -/
def fetchArgs : (args : List Bool) → (taken : List Nat) → Code (List Nat × Bool)
  | [], taken => pure (taken, decide (taken.length < MAXARG))
  | fetched :: args, taken =>
    if MAXARG ≤ taken.length then pure (taken, false)
    else do
      let r ← kalloc
      match r with
      | none => pure (taken, false)
      | some n => if fetched then fetchArgs args (taken ++ [n]) else pure (taken ++ [n], false)

def freeArgs : List Nat → Code Unit
  | [] => pure ()
  | n :: ns => do
    op (.kfree n)
    freeArgs ns

/-- `sys_exec`; an argument that cannot be fetched is `none`. -/
def sysExec (p : Slot) (file : Option (List UInt8)) (args : List (Option (List UInt8))) :
    Code Int := do
  let (taken, ok) ← fetchArgs (args.map Option.isSome) []
  if ok then
    let ret ← exec p file (args.filterMap id)
    freeArgs taken
    pure ret
  else
    freeArgs taken
    pure (-1)

/-! ## Calls -/

inductive Call where
  | fork
  | exec (file : Option (List UInt8)) (args : List (Option (List UInt8)))
  | sbrk (n : Int)
  | exit
  | wait (copied : Bool)
  | pipe (copied : Bool)
  | close (fd : Fd)

def Call.code (p : Slot) : Call → Code Unit
  | .fork => do
    let _ ← Vm.fork p
  | .exec file args => do
    let _ ← sysExec p file args
  | .sbrk n => do
    let _ ← growproc p n
  | .exit => Vm.exit p
  | .wait copied => do
    let _ ← Vm.wait p copied
  | .pipe copied => do
    let _ ← sysPipe p copied
  | .close fd => do
    let _ ← sysClose p fd

/-- A process that has been made runnable and has not exited may call. -/
def St.Calls (s : St) (p : Slot) (c : Call) : Outcome Panic (Unit × St) := (c.code p).run step s

inductive Step : St → St → Prop
  | call {s s' : St} {p : Slot} {c : Call} (live : (s.kern.proc p).state = .runnable)
      (run : s.Calls p c = .ok ((), s')) : Step s s'

end Xv6.Vm
